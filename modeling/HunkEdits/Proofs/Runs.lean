import HunkEdits.Hunk.Run
import HunkEdits.Proofs.Pieces
import Mathlib.Data.List.Pairwise

/-!
# The edits of runs

A hunk has one edit for each run of its changes (`Hunk.edits`).  A walk through a hunk holds the run
that it is in as the pending edit of its builder (`Run.pending`); a kept line ends the run and the
edit together, so what the walk has still to build is told by the runs of the operations before it,
the first of them begun already (`Run.resume`, `Edit.finish_of_foldlM`).

With this the edits of a patch are known without a walk (`Edit.ofHunks_terminate_eq`), and what they
are like is read off the runs (`Edit.edits_eq_of_ofPatch`).  The lines of runs are any numbers; in
the edits that come from a walk they are brought into words (`Edit.wrap`), and that changes nothing
where the hunk stops within a word (`Hunk.map_wrap_edits`).
-/

namespace HunkEdits

/-! ### Lines in words -/

/-- The position with its line kept in a word. -/
def Position.wrap (p : Position) : Position :=
  ⟨p.line % wordBound, p.character⟩

namespace Edit

variable {edit : Edit}

/-- The edit with its lines kept in words. -/
def wrap (edit : Edit) : Edit :=
  { edit with start := edit.start.wrap, stop := edit.stop.map Position.wrap }

end Edit

namespace Run

variable {r : Run} {line : Nat} {ops seen : List Op} {op : Op} {closed : Array Edit}

/-- The first line behind those that the run takes out. -/
def stop (r : Run) : Nat :=
  r.line + r.deleted

/-! ### The edit of a run -/

theorem start_edit (r : Run) : r.edit.start = .ofLine r.line := by
  unfold edit
  split
  · rfl
  · split <;> rfl

theorem eq_of_mem_stop_edit {p : Position} (hp : p ∈ r.edit.stop) : p = .ofLine r.stop := by
  unfold edit at hp
  split at hp
  · exact (Option.some.inj hp).symm
  · split at hp
    · cases hp
    · exact (Option.some.inj hp).symm

/-- What is pending in a builder that has come through a run. -/
def pending (r : Run) : Pending :=
  if r.inserted.isEmpty then
    if r.deleted = 0 then .idle else .deleting (.anchor r.line) (.anchor r.stop)
  else if r.deleted = 0 then .inserting (.anchor r.line) r.inserted.reverse
  else .replacing (.anchor r.line) (.anchor r.stop) r.inserted.reverse

theorem insert_pending (r : Run) (closed : Array Edit) (t : Text) :
    Builder.insert ⟨r.pending, closed⟩ (.anchor r.stop) t =
      ⟨pending { r with inserted := r.inserted ++ [t] }, closed⟩ := by
  obtain ⟨line, deleted, inserted⟩ := r
  cases inserted with
  | nil =>
    by_cases hd : deleted = 0
    · subst hd
      rfl
    · simp [pending, stop, Builder.insert, hd]
  | cons t' inserted =>
    by_cases hd : deleted = 0
    · subst hd
      simp [pending, Builder.insert]
    · simp [pending, stop, Builder.insert, hd]

/-- A deletion that does not fail goes on with the run. -/
theorem eq_of_delete_pending {b : Builder}
    (h : Builder.delete ⟨r.pending, closed⟩ (.anchor r.stop) (.anchor (r.stop + 1)) = .ok b) :
    b = ⟨pending { r with deleted := r.deleted + 1 }, closed⟩ := by
  obtain ⟨line, deleted, inserted⟩ := r
  cases inserted with
  | nil =>
    by_cases hd : deleted = 0
    · subst hd
      exact (Except.ok.inj h).symm
    · simp only [pending, List.isEmpty_nil, if_true, if_neg hd] at h
      exact (Except.ok.inj h).symm
  | cons t inserted =>
    by_cases hd : deleted = 0 <;> simp [pending, Builder.delete, hd] at h

theorem edit?_pending (h : ¬ (r.deleted = 0 ∧ r.inserted = [])) :
    r.pending.edit? = some r.edit.wrap := by
  obtain ⟨line, deleted, inserted⟩ := r
  cases inserted with
  | nil =>
    have hd : deleted ≠ 0 := fun hd => h ⟨hd, rfl⟩
    simp only [pending, edit, Pending.edit?, stop, hd, List.isEmpty_nil, if_true, if_false]
    rfl
  | cons t inserted =>
    by_cases hd : deleted = 0 <;>
      simp only [pending, edit, Pending.edit?, Pending.joined, stop, hd, List.isEmpty_cons,
        Bool.false_eq_true, if_true, if_false, List.reverse_reverse] <;> rfl

/-! ### Runs of operations -/

theorem ofOps_append_delete (line : Nat) (ops : List Op) (h : op.kind = .delete) :
    ofOps line (ops ++ [op]) =
      { ofOps line ops with deleted := (ofOps line ops).deleted + 1 } := by
  simp [ofOps, h]

theorem ofOps_append_insert (line : Nat) (ops : List Op) (h : op.kind = .insert) :
    ofOps line (ops ++ [op]) =
      { ofOps line ops with inserted := (ofOps line ops).inserted ++ [op.text] } := by
  simp [ofOps, h]

/-- A run of some operations changes something. -/
theorem ofOps_ne_idle (line : Nat) (h : ∀ op ∈ ops, op.kind ≠ .keep) (hne : ops ≠ []) :
    ¬ ((ofOps line ops).deleted = 0 ∧ (ofOps line ops).inserted = []) := by
  rintro ⟨hd, hi⟩
  obtain ⟨op, hop⟩ := List.exists_mem_of_ne_nil ops hne
  have hdel := List.countP_eq_zero.1 hd op hop
  have hins := List.filter_eq_nil_iff.1 (List.map_eq_nil_iff.1 hi) op hop
  have := h op hop
  cases hk : op.kind <;> simp_all

theorem toList_edit?_pending (line : Nat) (h : ∀ op ∈ seen, op.kind ≠ .keep) :
    (ofOps line seen).pending.edit?.toList =
      (if seen.isEmpty then [] else [ofOps line seen]).map fun r => r.edit.wrap := by
  by_cases hne : seen = []
  · subst hne
    rfl
  · rw [edit?_pending (ofOps_ne_idle line h hne)]
    simp [hne]

/-! ### Runs, one operation after the other -/

/-- The runs of operations, the first of which has begun with the operations `seen`. -/
def resume (line : Nat) (seen ops : List Op) : List Run :=
  ofStretches line ((ops.splitOnP fun op => op.kind == .keep).modifyHead (seen ++ ·))

private theorem resume_eq (line : Nat) (seen ops : List Op) : resume line seen ops =
    ofStretches line (ops.splitOnPPrepend (fun op => op.kind == .keep) seen.reverse) := by
  rw [resume, List.splitOnPPrepend_eq_modifyHead, List.reverse_reverse]

theorem runs_eq_resume (h : Hunk) : h.runs = resume h.old.start [] h.ops := by
  rw [resume_eq, List.reverse_nil, ← List.splitOnP_eq_splitOnPPrepend]
  rfl

theorem resume_nil (line : Nat) (seen : List Op) :
    resume line seen [] = if seen.isEmpty then [] else [ofOps line seen] := by
  simp [resume, ofStretches]

/-- A kept line ends a run, and the next one begins behind it. -/
theorem resume_keep (line : Nat) (seen ops : List Op) (hk : op.kind = .keep) :
    resume line seen (op :: ops) = (if seen.isEmpty then [] else [ofOps line seen]) ++
      resume ((ofOps line seen).stop + 1) [] ops := by
  rw [resume_eq, List.splitOnPPrepend_cons_pos (by simp [hk]), List.reverse_reverse, resume_eq]
  rfl

theorem resume_change (line : Nat) (seen ops : List Op) (hk : op.kind ≠ .keep) :
    resume line seen (op :: ops) = resume line (seen ++ [op]) ops := by
  rw [resume_eq, List.splitOnPPrepend_cons_neg (by simp [hk]), resume_eq, List.reverse_concat]

/-! ### Where runs stand -/

theorem keepless_append (hseen : ∀ op ∈ seen, op.kind ≠ .keep) (hk : op.kind ≠ .keep) :
    ∀ op' ∈ seen ++ [op], op'.kind ≠ .keep :=
  List.forall_mem_append.2 ⟨hseen, List.forall_mem_singleton.2 hk⟩

end Run

/-! ### The edits of a walk -/

namespace Edit

variable {o : Options} {base : Document} {h : Hunk} {edits : List Edit}
  {seen ops : List Op} {closed : Array Edit} {s : Position × Builder}

/-- A walk that is in a run makes the edit of that run and those of the runs behind it. -/
theorem finish_of_foldlM (line : Nat) (hseen : ∀ op ∈ seen, op.kind ≠ .keep)
    (hline : ∀ op ∈ ops, ∀ k, (Position.anchor k).advance o.encoding op.text = .anchor (k + 1))
    (hrun : ops.foldlM (step o base)
      (.anchor (Run.ofOps line seen).stop, ⟨(Run.ofOps line seen).pending, closed⟩) = .ok s) :
    s.2.finish = closed.toList ++ (Run.resume line seen ops).map fun r => r.edit.wrap := by
  induction ops generalizing line seen closed with
  | nil =>
    obtain rfl := Except.ok.inj hrun
    rw [Builder.finish_eq, Run.toList_edit?_pending line hseen, Run.resume_nil]
  | cons op ops ih =>
    obtain ⟨hop, hline⟩ := List.forall_mem_cons.1 hline
    rw [List.foldlM_cons] at hrun
    obtain ⟨s', hstep, hrun⟩ := bind_eq_ok_iff.1 hrun
    cases hk : op.kind with
    | keep =>
      rw [step_keep hk, map_eq_ok_iff, hop, Builder.close_eq] at hstep
      obtain ⟨_, -, rfl⟩ := hstep
      have ih := ih ((Run.ofOps line seen).stop + 1) (List.forall_mem_nil _) hline hrun
      rw [ih, Builder.closed_close, Run.toList_edit?_pending line hseen, Run.resume_keep _ _ _ hk,
        List.map_append, List.append_assoc]
    | delete =>
      have hne : op.kind ≠ .keep := by simp [hk]
      rw [step_delete hk, hop] at hstep
      obtain ⟨_, -, hstep⟩ := bind_eq_ok_iff.1 hstep
      obtain ⟨b, hb, rfl⟩ := map_eq_ok_iff.1 hstep
      have hstop : (Run.ofOps line seen).stop + 1 = (Run.ofOps line (seen ++ [op])).stop := by
        rw [Run.ofOps_append_delete line seen hk]
        rfl
      rw [Run.eq_of_delete_pending hb, ← Run.ofOps_append_delete line seen hk, hstop] at hrun
      rw [Run.resume_change _ _ _ hne]
      exact ih line (Run.keepless_append hseen hne) hline hrun
    | insert =>
      have hne : op.kind ≠ .keep := by simp [hk]
      have hstop : (Run.ofOps line seen).stop = (Run.ofOps line (seen ++ [op])).stop := by
        rw [Run.ofOps_append_insert line seen hk]
        rfl
      rw [step_insert hk, Run.insert_pending, ← Run.ofOps_append_insert line seen hk,
        hstop] at hstep
      obtain rfl := Except.ok.inj hstep
      rw [Run.resume_change _ _ _ hne]
      exact ih line (Run.keepless_append hseen hne) hline hrun

end Edit

/-! ### The edits of a hunk -/

namespace Hunk

variable {h : Hunk} {edit : Edit} {s : Nat × Op}

/-- The edits of a hunk, one for each of its runs. -/
def edits (h : Hunk) : List Edit :=
  h.runs.map Run.edit

end Hunk

/-! ### The edits of a patch -/

namespace Edit

variable {o : Options} {base : Document} {h : Hunk} {hunks : List Hunk} {edits : List Edit}

theorem ofHunk_terminate_eq_edits (hn : ∀ op ∈ h.ops, '\n' ∉ op.text)
    (hrun : ofHunk o base (h.terminate o.lineEnding) = .ok edits) :
    edits = (h.terminate o.lineEnding).edits.map wrap := by
  have hline : ∀ op ∈ (h.terminate o.lineEnding).ops, ∀ k,
      (Position.anchor k).advance o.encoding op.text = .anchor (k + 1) := by
    rw [Hunk.ops_terminate, List.forall_mem_map]
    intro op hop k
    exact Position.anchor_advance_of_isLine (Text.isLine_terminated o.lineEnding (hn op hop))
  obtain ⟨s, hwalk, hfin⟩ := bind_eq_ok_iff.1 hrun
  obtain rfl : s.2.finish = edits := Except.ok.inj hfin
  have hall := finish_of_foldlM h.old.start (List.forall_mem_nil _) hline hwalk
  rw [hall, Hunk.edits, Run.runs_eq_resume, List.map_map]
  rfl

/-- Unless an operation is at fault, hunks have the edits of their runs, in ascending order of their
first lines, with lines that are words. -/
theorem ofHunks_terminate_eq (hn : ∀ h ∈ hunks, ∀ op ∈ h.ops, '\n' ∉ op.text) :
    ofHunks o base (hunks.map (Hunk.terminate o.lineEnding)) =
      match (inOrder hunks).findSome? (Hunk.firstFault? o base) with
      | some err => .error err
      | none => .ok (((inOrder hunks).map (Hunk.terminate o.lineEnding)).flatMap fun h =>
          h.edits.map wrap) := by
  cases hf : (inOrder hunks).findSome? (Hunk.firstFault? o base) with
  | some err => exact ofHunks_terminate_eq_error hn hf
  | none =>
    obtain ⟨edits, hok⟩ := ofHunks_terminate_eq_ok hn (findSome?_inOrder_eq_none_iff.1 hf)
    rw [hok]
    rw [ofHunks, inOrder_terminate, List.mapM_map] at hok
    obtain ⟨ess, hess, hflat⟩ := bind_eq_ok_iff.1 hok
    obtain rfl : ess.flatten = edits := Except.ok.inj hflat
    have hall : ess = (inOrder hunks).map fun h =>
        (h.terminate o.lineEnding).edits.map wrap := by
      refine eq_map_of_mapM_eq_ok ?_ hess
      intro h hh es hes
      exact ofHunk_terminate_eq_edits (hn h (mem_inOrder.1 hh)) hes
    rw [hall, List.flatMap_def, List.map_map]
    rfl

theorem eq_edits_of_ofHunks (hn : ∀ h ∈ hunks, ∀ op ∈ h.ops, '\n' ∉ op.text)
    (hok : ofHunks o base (hunks.map (Hunk.terminate o.lineEnding)) = .ok edits) :
    edits = ((inOrder hunks).map (Hunk.terminate o.lineEnding)).flatMap fun h =>
      h.edits.map wrap := by
  rw [ofHunks_terminate_eq hn] at hok
  split at hok
  · cases hok
  · exact (Except.ok.inj hok).symm

end Edit

end HunkEdits
