import HunkEdits.Proofs.LineWalk
import HunkEdits.Proofs.Parsing

/-!
# The outcome of a conversion

A patch that can be read is turned into edits unless one of its operations is at fault: it stands
for a line that the base text does not have there, or it deletes after an insertion with no kept
line between them.  The first operation at fault decides which error is given, and where there is
none the edits do not depend on the base text (`Edit.ofPatch_outcome`).
-/

namespace HunkEdits

/-- Every line that operations stand for is that of one of them. -/
theorem Op.exists_consumes {ops : List Op} {n : Nat}
    (hn : n < ops.countP fun op => op.kind.consumes) :
    ∃ j op, ops[j]? = some op ∧ op.kind.consumes = true ∧
      ((ops.take j).countP fun op => op.kind.consumes) = n := by
  induction ops generalizing n with
  | nil => cases hn
  | cons op ops ih =>
    by_cases hc : op.kind.consumes = true
    · cases n with
      | zero => exact ⟨0, op, rfl, hc, rfl⟩
      | succ n =>
        rw [List.countP_cons_of_pos (by exact hc)] at hn
        obtain ⟨j, op', hop, hc', hcount⟩ := ih (Nat.lt_of_succ_lt_succ hn)
        refine ⟨j + 1, op', hop, hc', ?_⟩
        rw [List.take_succ_cons, List.countP_cons_of_pos (by exact hc), hcount]
    · rw [List.countP_cons_of_neg (by exact hc)] at hn
      obtain ⟨j, op', hop, hc', hcount⟩ := ih hn
      refine ⟨j + 1, op', hop, hc', ?_⟩
      rw [List.take_succ_cons, List.countP_cons_of_neg (by exact hc), hcount]

namespace Hunk

variable (o : Options) (base : Document) (h : Hunk)

/-- The line of the base text that the hunk has come to after some of its operations.  It is counted
in a word. -/
def lineAfter (before : List Op) : Nat :=
  (h.old.start + before.countP fun op => op.kind.consumes) % wordBound

/-- What is wrong with operation `j` of the hunk, if anything is.  An operation that stands for a
line is compared with the base text before a deletion is refused. -/
def fault? (j : Nat) : Option PatchError :=
  h.ops[j]?.bind fun op =>
    let before := h.ops.take j
    let line := h.lineAfter before
    if o.verify ∧ op.kind.consumes ∧ base.line? line ≠ some op.text then
      some (.contextMismatch line op.text (base.line? line))
    else if op.kind = .delete ∧ Op.hasInsertion before then
      some (.deletionAfterInsertion (.ofLine line) (.ofLine (h.lineAfter (Op.settled before))))
    else none

/-- What is wrong with the first operation of the hunk that is at fault. -/
def firstFault? : Option PatchError :=
  (List.range h.ops.length).findSome? (h.fault? o base)

theorem firstFault?_eq_none_iff : h.firstFault? o base = none ↔ ∀ j, h.fault? o base j = none := by
  rw [firstFault?, List.findSome?_eq_none_iff]
  constructor
  · intro hf j
    by_cases hj : j < h.ops.length
    · exact hf j (List.mem_range.2 hj)
    · rw [fault?, List.getElem?_eq_none (Nat.le_of_not_lt hj), Option.bind_none]
  · intro hf j _
    exact hf j

/-- With verification on, a hunk that is not at fault stands for lines of the base text. -/
theorem line?_of_firstFault?_eq_none {o : Options} {base : Document} {h : Hunk}
    (hv : o.verify = true) (hf : h.firstFault? o base = none) {j : Nat} {op : Op}
    (hop : h.ops[j]? = some op) (hc : op.kind.consumes = true) :
    base.line? (h.lineAfter (h.ops.take j)) = some op.text := by
  have hnone := (h.firstFault?_eq_none_iff o base).1 hf j
  rw [fault?, hop, Option.bind_some] at hnone
  simp only [hv, hc, true_and] at hnone
  by_contra hline
  rw [if_pos hline] at hnone
  cases hnone

/-- **A verified hunk stops within a word**, where the lines of the base text do. -/
theorem stop_lt_of_firstFault?_eq_none {o : Options} {t : Text} {h : Hunk}
    (hv : o.verify = true) (hf : h.firstFault? o (.ofText t) = none)
    (hstart : h.old.start < wordBound) (ht : (Text.lines t).length < wordBound) :
    h.stop < wordBound := by
  by_contra hs
  -- an operation would stand for the line with the greatest number, which the text does not have
  have hn : wordBound - 1 - h.old.start < h.consumed := by
    unfold stop at hs
    omega
  obtain ⟨j, op, hop, hc, hcount⟩ := Op.exists_consumes hn
  have hline := line?_of_firstFault?_eq_none hv hf hop hc
  have hlast : h.lineAfter (h.ops.take j) = wordBound - 1 := by
    rw [lineAfter, hcount, Nat.mod_eq_of_lt (by omega)]
    omega
  rw [Text.lines, List.length_map] at ht
  rw [hlast, Document.line?_of_length_le (by omega)] at hline
  cases hline

/-- As long as the hunk stops within a word, each line that an operation stands for counts. -/
theorem lineAfter_of_stop_lt {h : Hunk} (hs : h.stop < wordBound) {before : List Op}
    (hb : before.Sublist h.ops) :
    h.lineAfter before = h.old.start + before.countP fun op => op.kind.consumes := by
  have hle : (before.countP fun op => op.kind.consumes) ≤ h.consumed := hb.countP_le
  refine Nat.mod_eq_of_lt (Nat.lt_of_le_of_lt ?_ hs)
  unfold stop
  omega

theorem lineAfter_take_lt_stop {h : Hunk} {j : Nat} {op : Op} (hop : h.ops[j]? = some op)
    (hc : op.kind.consumes = true) : h.lineAfter (h.ops.take j) < h.stop := by
  have htake : h.ops.take (j + 1) = h.ops.take j ++ [op] := by
    rw [List.take_add_one, hop, Option.toList_some]
  have hle : ((h.ops.take (j + 1)).countP fun op => op.kind.consumes) ≤ h.consumed :=
    (List.take_sublist _ _).countP_le
  rw [htake, List.countP_append, List.countP_singleton, if_pos hc] at hle
  refine Nat.lt_of_le_of_lt (Nat.mod_le _ _) ?_
  unfold stop
  omega

/-- Faults depend on the lines that the hunk stands for, if these are verified, and on no others. -/
theorem firstFault?_congr {o o' : Options} {base base' : Document} {h : Hunk}
    (hv : o.verify = o'.verify)
    (hline : o.verify = true → ∀ k < h.stop, base.line? k = base'.line? k) :
    h.firstFault? o base = h.firstFault? o' base' := by
  have hfault : h.fault? o base = h.fault? o' base' := by
    funext j
    rw [fault?, fault?, ← hv]
    cases hop : h.ops[j]? with
    | none => rfl
    | some op =>
      by_cases hc : o.verify = true ∧ op.kind.consumes = true
      · simp only [Option.bind_some, hline hc.1 _ (lineAfter_take_lt_stop hop hc.2)]
      · have hskip (found : Prop) : ¬ (o.verify = true ∧ op.kind.consumes = true ∧ found) :=
          fun hall => hc ⟨hall.1, hall.2.1⟩
        simp only [Option.bind_some, if_neg (hskip _)]
  rw [firstFault?, firstFault?, hfault]

end Hunk

namespace Edit

variable {o : Options} {base : Document} {h : Hunk} {before ops : List Op} {err : PatchError}

/-! ### Faults of whole lines -/

theorem advance_oldText_lineAfter (e : Encoding) (ending : LineEnding)
    (hn : ∀ op ∈ before, '\n' ∉ op.text) :
    (Position.anchor h.old.start).advance e (Op.oldText (before.map (Op.terminate ending))) =
      .ofLine (h.lineAfter before) :=
  Position.advance_oldText_terminate ending hn

/-- In a hunk of whole lines an operation has the fault of its line. -/
theorem fault?_terminate (op : Op) (hn : ∀ op ∈ before, '\n' ∉ op.text) :
    fault? o base (.anchor h.old.start) (before.map (Op.terminate o.lineEnding))
        (Op.terminate o.lineEnding op) =
      if o.verify ∧ op.kind.consumes ∧ base.line? (h.lineAfter before) ≠ some op.text then
        some (.contextMismatch (h.lineAfter before) op.text (base.line? (h.lineAfter before)))
      else if op.kind = .delete ∧ Op.hasInsertion before then
        some (.deletionAfterInsertion (.ofLine (h.lineAfter before))
          (.ofLine (h.lineAfter (Op.settled before))))
      else none := by
  have hs : ∀ op ∈ Op.settled before, '\n' ∉ op.text := by
    intro op ho
    exact hn op ((Op.settled_sublist before).mem ho)
  simp only [fault?, Op.settled_terminate, Op.hasInsertion_terminate,
    advance_oldText_lineAfter _ _ hn, advance_oldText_lineAfter _ _ hs]
  rw [show (Op.terminate o.lineEnding op).kind = op.kind from rfl,
    show (Op.terminate o.lineEnding op).text = op.text ++ o.lineEnding.text from rfl,
    checkContext_terminated]
  cases hc : op.kind.consumes with
  | true =>
    by_cases hv : o.verify ∧ base.line? (h.lineAfter before) ≠ some op.text
    · simp [hv]
    · have hv' : ¬ (o.verify ∧ true = true ∧ base.line? (h.lineAfter before) ≠ some op.text) := by
        rintro ⟨hverify, -, hne⟩
        exact hv ⟨hverify, hne⟩
      rw [if_pos rfl, if_neg hv, if_neg hv']
  | false =>
    have hk : op.kind ≠ .delete := fun hk => by simp [hk, OpKind.consumes] at hc
    simp [hk]

theorem firstFault?_terminate (hn : ∀ op ∈ h.ops, '\n' ∉ op.text) :
    firstFault? o base (.anchor h.old.start) [] (h.terminate o.lineEnding).ops =
      h.firstFault? o base := by
  rw [firstFault?_eq_findSome?, Hunk.ops_terminate, List.length_map, Hunk.firstFault?]
  congr 1
  funext j
  rw [Hunk.fault?, List.getElem?_map, Option.bind_map, List.nil_append, ← List.map_take]
  congr 1
  funext op
  apply fault?_terminate
  intro op ho
  exact hn op (List.mem_of_mem_take ho)

/-! ### What verification changes -/

theorem inOrder_terminate (ending : LineEnding) (hunks : List Hunk) :
    inOrder (hunks.map (Hunk.terminate ending)) = (inOrder hunks).map (Hunk.terminate ending) :=
  (List.map_mergeSort (f := Hunk.terminate ending) fun _ _ _ _ => rfl).symm

theorem mem_inOrder {hunks : List Hunk} : h ∈ inOrder hunks ↔ h ∈ hunks :=
  (List.mergeSort_perm _ _).mem_iff

theorem findSome?_inOrder_eq_none_iff {hunks : List Hunk} :
    (inOrder hunks).findSome? (Hunk.firstFault? o base) = none ↔
      ∀ h ∈ hunks, h.firstFault? o base = none := by
  rw [List.findSome?_eq_none_iff]
  simp only [mem_inOrder]

theorem start_le_trans (h k m : Hunk) (hhk : decide (h.old.start ≤ k.old.start) = true)
    (hkm : decide (k.old.start ≤ m.old.start) = true) :
    decide (h.old.start ≤ m.old.start) = true := by
  rw [decide_eq_true_eq] at *
  omega

theorem start_le_total (h k : Hunk) :
    (decide (h.old.start ≤ k.old.start) || decide (k.old.start ≤ h.old.start)) = true := by
  rw [Bool.or_eq_true, decide_eq_true_eq, decide_eq_true_eq]
  omega

theorem pairwise_start_inOrder (hunks : List Hunk) :
    (inOrder hunks).Pairwise fun h k => h.old.start ≤ k.old.start := by
  have hsorted : (inOrder hunks).Pairwise _ :=
    List.pairwise_mergeSort start_le_trans start_le_total hunks
  exact hsorted.imp of_decide_eq_true

theorem inOrder_of_pairwise {hunks : List Hunk}
    (h : hunks.Pairwise fun h k => h.old.start ≤ k.old.start) : inOrder hunks = hunks :=
  List.mergeSort_of_pairwise (h.imp fun hle => decide_eq_true hle)

theorem inOrder_of_apart {hunks : List Hunk} (h : Hunk.Apart hunks) : inOrder hunks = hunks := by
  refine inOrder_of_pairwise (h.imp ?_)
  intro h k hhk
  unfold Hunk.stop at hhk
  omega

/-- Two hunks of which the second one begins earlier change places. -/
theorem inOrder_pair {k : Hunk} (hlt : k.old.start < h.old.start) : inOrder [h, k] = [k, h] := by
  have hle : ¬ h.old.start ≤ k.old.start := Nat.not_le.2 hlt
  simp [inOrder, List.mergeSort, List.MergeSort.Internal.splitInTwo, hle]

section

variable {hunks : List Hunk} (hn : ∀ h ∈ hunks, ∀ op ∈ h.ops, '\n' ∉ op.text)
include hn

theorem ofHunks_terminate_eq_error
    (hf : (inOrder hunks).findSome? (Hunk.firstFault? o base) = some err) :
    ofHunks o base (hunks.map (Hunk.terminate o.lineEnding)) = .error err := by
  have hfault : ∀ h ∈ inOrder hunks, firstFault? o base (.anchor h.old.start) []
      (h.terminate o.lineEnding).ops = h.firstFault? o base := by
    intro h hh
    exact firstFault?_terminate (hn h (mem_inOrder.1 hh))
  have hm : (inOrder hunks).mapM (ofHunk o base ∘ Hunk.terminate o.lineEnding) = .error err := by
    apply mapM_eq_error _ _ hf
    · intro h hh err' hf'
      exact ofHunk_eq_error ((hfault h hh).trans hf')
    · intro h hh hf'
      exact ofHunk_eq_ok ((hfault h hh).trans hf')
  rw [ofHunks, inOrder_terminate, List.mapM_map, hm]
  rfl

theorem firstFault?_eq_none_of_ofHunks {edits : List Edit}
    (hok : ofHunks o base (hunks.map (Hunk.terminate o.lineEnding)) = .ok edits) :
    ∀ h ∈ hunks, h.firstFault? o base = none := by
  rw [← findSome?_inOrder_eq_none_iff]
  cases hf : (inOrder hunks).findSome? (Hunk.firstFault? o base) with
  | none => rfl
  | some err =>
    rw [ofHunks_terminate_eq_error hn hf] at hok
    cases hok

theorem ofHunks_terminate_eq_ok (hf : ∀ h ∈ hunks, h.firstFault? o base = none) :
    ∃ edits, ofHunks o base (hunks.map (Hunk.terminate o.lineEnding)) = .ok edits := by
  obtain ⟨r, hr⟩ : ∃ r, (inOrder hunks).mapM (ofHunk o base ∘ Hunk.terminate o.lineEnding) =
      .ok r := by
    apply mapM_eq_ok
    intro h hh
    have hh := mem_inOrder.1 hh
    exact ofHunk_eq_ok ((firstFault?_terminate (hn h hh)).trans (hf h hh))
  refine ⟨r.flatten, ?_⟩
  rw [ofHunks, inOrder_terminate, List.mapM_map, hr]
  rfl

end

theorem ofPatch_eq_ofHunks {patch : Text} {hunks : List Hunk} (h : Patch.parse patch = .ok hunks)
    (o : Options) (text : Text) : ofPatch o text patch =
      ofHunks o (.ofText text) (hunks.map (Hunk.terminate o.lineEnding)) := by
  rw [ofPatch, h]
  rfl

/-- Verified hunks stop within a word, where the lines of the base text do. -/
theorem stop_lt_of_ofPatch (hv : o.verify = true) {text patch : Text} {hunks : List Hunk}
    {edits : List Edit} (hparse : Patch.parse patch = .ok hunks)
    (htext : (Text.lines text).length < wordBound) (hconv : ofPatch o text patch = .ok edits) :
    ∀ h ∈ hunks, h.stop < wordBound := by
  intro h hh
  rw [ofPatch_eq_ofHunks hparse] at hconv
  have hf := firstFault?_eq_none_of_ofHunks (Patch.newline_notMem_of_parse hparse) hconv h hh
  exact Hunk.stop_lt_of_firstFault?_eq_none hv hf (Patch.start_lt_of_parse hparse h hh) htext

end Edit

end HunkEdits
