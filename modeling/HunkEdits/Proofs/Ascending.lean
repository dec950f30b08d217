import HunkEdits.Proofs.LineRefinement

/-!
# Edits in ascending order

Applying refuses edits that begin before an earlier one ends, and the edits of a conversion may be
such: hunks are taken in ascending order of their first lines, but nothing keeps one from beginning
inside another.  The edits of a single hunk always ascend (`Edit.ofHunk_terminate_ascending`).  With
verification on, the lines that edits name exist, so that the order of positions is the order of
bytes; then edits can be applied exactly if they ascend (`Edit.apply_ok_iff_ascending`).
-/

namespace HunkEdits

/-! ### Bytes of line starts -/

namespace Document

variable {t : Text} {k m : Nat}

/-- Up to the last line, each line starts at a byte of its own. -/
theorem lineStart_strictMono (h : k < m) (hm : m ≤ (Text.rawLines t).length) :
    (ofText t).lineStart k < (ofText t).lineStart m := by
  have hk : k < (Text.rawLines t).length := by omega
  have hline : (((Text.rawLines t).drop k).take 1).flatten = (Text.rawLines t)[k] := by
    rw [List.drop_eq_getElem_cons hk, List.take_succ_cons, List.take_zero, List.flatten_cons,
      List.flatten_nil, List.append_nil]
  have hpos : Text.bytes (Text.rawLines t)[k] ≠ 0 := by
    intro h0
    exact Text.ne_nil_of_mem_rawLines (List.getElem_mem hk) (Text.bytes_eq_zero_iff.1 h0)
  have hnext := lineStart_add t k 1
  rw [hline] at hnext
  have := lineStart_mono t (show k + 1 ≤ m from h)
  omega

end Document

namespace Edit

/-- Whether no edit ends before it begins, and none begins before an earlier one ends. -/
def Ascending (edits : List Edit) : Prop :=
  (∀ edit ∈ edits, edit.start ≤ edit.finish) ∧ edits.Pairwise fun f g => f.finish ≤ g.start

instance (edits : List Edit) : Decidable (Ascending edits) :=
  inferInstanceAs (Decidable ((∀ edit ∈ edits, _) ∧ List.Pairwise _ _))

variable {o : Options} {base d : Document} {e : Encoding} {h : Hunk} {edits : List Edit}

/-! ### When edits can be applied -/

/-- Edits can be applied if no one begins at a byte before that at which an earlier one ends. -/
theorem applyFrom_eq_ok_iff {done : Nat} {rest : Text} :
    (∃ result, applyFrom d e done rest edits = .ok result) ↔
      (∀ edit ∈ edits, done ≤ (edit.byteRange d e).1) ∧
        edits.Pairwise fun f g => (f.byteRange d e).2 ≤ (g.byteRange d e).1 := by
  induction edits generalizing done rest with
  | nil => simp [applyFrom]
  | cons edit edits ih =>
    have hrange : (edit.byteRange d e).1 ≤ (edit.byteRange d e).2 := Nat.le_max_right _ _
    rw [List.forall_mem_cons, List.pairwise_cons]
    by_cases hlt : (edit.byteRange d e).1 < done
    · constructor
      · rintro ⟨result, hresult⟩
        simp only [applyFrom, if_pos hlt, reduceCtorEq] at hresult
      · rintro ⟨⟨hdone, -⟩, -⟩
        omega
    · simp only [applyFrom, if_neg hlt, map_eq_ok_iff]
      constructor
      · rintro ⟨_, result, hresult, -⟩
        obtain ⟨hstarts, hpairs⟩ := ih.1 ⟨result, hresult⟩
        refine ⟨⟨Nat.le_of_not_lt hlt, ?_⟩, hstarts, hpairs⟩
        intro next hnext
        have := hstarts next hnext
        omega
      · rintro ⟨-, hstarts, hpairs⟩
        obtain ⟨result, hresult⟩ := ih.2 ⟨hstarts, hpairs⟩
        exact ⟨_, result, hresult, rfl⟩

/-! ### The edits of a walk -/

/-- What the builder of a walk is like: its edits ascend up to the cursor, and they begin and end at
positions that the walk has come through. -/
structure Tidy (P : Position → Prop) (s : Position × Builder) : Prop where
  opened : P (s.2.pending.startFrom s.1)
  behind : s.2.pending.startFrom s.1 ≤ s.1
  pending : ∀ edit, s.2.pending.edit? = some edit →
    P edit.finish ∧ edit.start ≤ edit.finish ∧ edit.finish ≤ s.1
  closed : Ascending s.2.closed.toList
  bounded : ∀ edit ∈ s.2.closed.toList,
    (P edit.start ∧ P edit.finish) ∧ edit.finish ≤ s.2.pending.startFrom s.1

variable {P : Position → Prop} {p : Position} {b : Builder}

theorem tidy_start (hp : P p) : Tidy P (p, {}) where
  opened := hp
  behind := p.le_refl
  pending := by simp [Pending.edit?]
  closed := ⟨by simp, .nil⟩
  bounded := by simp

/-- When the pending edit ends, it comes behind the others. -/
theorem Tidy.finish (hs : Tidy P (p, b)) : Ascending b.finish ∧
    ∀ edit ∈ b.finish, (P edit.start ∧ P edit.finish) ∧ edit.finish ≤ p := by
  obtain ⟨hopen, hbehind, hpend, ⟨hranges, hpairs⟩, hbound⟩ := hs
  have hclosed : ∀ edit ∈ b.closed.toList, (P edit.start ∧ P edit.finish) ∧ edit.finish ≤ p := by
    intro edit hedit
    obtain ⟨hP, hle⟩ := hbound edit hedit
    exact ⟨hP, Position.le_trans hle hbehind⟩
  rw [b.finish_eq]
  cases hedit : b.pending.edit? with
  | none =>
    rw [Option.toList_none, List.append_nil]
    exact ⟨⟨hranges, hpairs⟩, hclosed⟩
  | some last =>
    obtain ⟨hfinish, hrange, hle⟩ := hpend last hedit
    have hstart : last.start = b.pending.startFrom p := Pending.start_of_edit? p hedit
    rw [Option.toList_some]
    have hlast : (P last.start ∧ P last.finish) ∧ last.finish ≤ p :=
      ⟨⟨hstart ▸ hopen, hfinish⟩, hle⟩
    refine ⟨⟨?_, List.pairwise_append.2 ⟨hpairs, List.pairwise_singleton _ _, ?_⟩⟩, ?_⟩
    · exact List.forall_mem_append.2 ⟨hranges, List.forall_mem_singleton.2 hrange⟩
    · intro edit hedit
      rw [List.forall_mem_singleton, hstart]
      exact (hbound edit hedit).2
    · exact List.forall_mem_append.2 ⟨hclosed, List.forall_mem_singleton.2 hlast⟩

theorem Tidy.close {q : Position} (hs : Tidy P (p, b)) (hq : P q) (hpq : p ≤ q) :
    Tidy P (q, b.close) := by
  obtain ⟨hasc, hbound⟩ := hs.finish
  constructor
  · simpa using hq
  · simpa using q.le_refl
  · simp [Pending.edit?]
  · exact hasc
  · intro edit hedit
    obtain ⟨hP, hle⟩ := hbound edit hedit
    refine ⟨hP, ?_⟩
    simpa using Position.le_trans hle hpq

theorem Tidy.delete {q : Position} (hs : Tidy P (p, b)) (hq : P q) (hpq : p ≤ q) :
    Tidy P (q, { b with pending := .deleting (b.pending.startFrom p) q }) where
  opened := hs.opened
  behind := Position.le_trans hs.behind hpq
  pending := by
    rintro edit ⟨⟩
    exact ⟨hq, Position.le_trans hs.behind hpq, q.le_refl⟩
  closed := hs.closed
  bounded := hs.bounded

theorem Tidy.insert (hs : Tidy P (p, b)) (hp : P p) (t : Text) : Tidy P (p, b.insert p t) := by
  constructor
  · simpa using hs.opened
  · simpa using hs.behind
  · intro edit hedit
    have hstart := Pending.start_of_edit? p hedit
    rw [b.startFrom_insert] at hstart
    rcases Builder.finish_of_edit?_insert b p t hedit with hfin | ⟨old, hold, hfin⟩
    · rw [hfin, hstart]
      exact ⟨hp, hs.behind, p.le_refl⟩
    · rw [hfin, hstart, ← Pending.start_of_edit? p hold]
      exact hs.pending old hold
  · simpa using hs.closed
  · simpa using hs.bounded

/-- A walk through positions of a kind keeps its builder tidy, as long as words can count the lines
that it comes to. -/
theorem Tidy.foldlM {ops : List Op} {s : Position × Builder} (hs : Tidy P (p, b))
    (hword : p.line + (Op.oldText ops).count '\n' < wordBound)
    (hP : ∀ before, before <+: ops → P (p.advance o.encoding (Op.oldText before)))
    (hrun : ops.foldlM (step o base) (p, b) = .ok s) : Tidy P s := by
  induction ops generalizing p b with
  | nil =>
    obtain rfl := Except.ok.inj hrun
    exact hs
  | cons op ops ih =>
    have hp : P p := hP [] (List.nil_prefix ..)
    have hnext : ∀ before, before <+: ops → P ((p.advance o.encoding
        (if op.kind.consumes then op.text else [])).advance o.encoding (Op.oldText before)) := by
      intro before hbefore
      have := hP (op :: before) (List.cons_prefix_cons.2 ⟨rfl, hbefore⟩)
      rwa [Op.oldText_cons, Position.advance_append] at this
    have hq := hnext [] (List.nil_prefix ..)
    rw [Op.oldText_cons, List.count_append, ← Nat.add_assoc] at hword
    have hlt := Nat.lt_of_le_of_lt (Nat.le_add_right _ _) hword
    have hpq := Position.le_advance (e := o.encoding) hlt
    rw [← Position.line_advance (e := o.encoding) hlt] at hword
    rw [List.foldlM_cons] at hrun
    obtain ⟨s', hstep, hrun⟩ := bind_eq_ok_iff.1 hrun
    cases hk : op.kind with
    | keep =>
      rw [hk, OpKind.consumes, if_pos rfl] at hq hnext hpq hword
      rw [step_keep hk, map_eq_ok_iff] at hstep
      obtain ⟨_, -, rfl⟩ := hstep
      exact ih (hs.close hq hpq) hword hnext hrun
    | delete =>
      rw [hk, OpKind.consumes, if_pos rfl] at hq hnext hpq hword
      rw [step_delete hk, Builder.delete_eq] at hstep
      obtain ⟨_, -, hstep⟩ := bind_eq_ok_iff.1 hstep
      obtain ⟨b', hb', rfl⟩ := map_eq_ok_iff.1 hstep
      split at hb'
      · cases hb'
      · obtain rfl := Except.ok.inj hb'
        exact ih (hs.delete hq hpq) hword hnext hrun
    | insert =>
      rw [hk, OpKind.consumes, if_neg Bool.false_ne_true, Position.advance_nil] at hnext hword
      rw [step_insert hk] at hstep
      obtain rfl := Except.ok.inj hstep
      exact ih (hs.insert hp op.text) hword hnext hrun

end Edit

/-! ### The edits of one hunk -/

namespace Hunk

variable {h : Hunk} {p : Position}

/-- Whether a walk through the hunk comes to a position. -/
def ComesTo (h : Hunk) (p : Position) : Prop :=
  ∃ before, before <+: h.ops ∧ p = .ofLine (h.lineAfter before)

theorem ComesTo.bounds (hs : h.stop < wordBound) (hp : h.ComesTo p) :
    ∃ k, p = .ofLine k ∧ h.old.start ≤ k ∧ k ≤ h.stop := by
  obtain ⟨before, hbefore, rfl⟩ := hp
  rw [lineAfter_of_stop_lt hs hbefore.sublist]
  refine ⟨_, rfl, Nat.le_add_right _ _, Nat.add_le_add_left ?_ _⟩
  exact hbefore.sublist.countP_le

/-- With verification on, a walk that is not at fault stays where it begins or among the lines. -/
theorem ComesTo.line_le {o : Options} {t : Text} (hv : o.verify = true) (hs : h.stop < wordBound)
    (hf : h.firstFault? o (.ofText t) = none) (hp : h.ComesTo p) :
    p.line = h.old.start ∨ p.line ≤ (Text.rawLines t).length := by
  obtain ⟨before, hbefore, rfl⟩ := hp
  induction before using List.reverseRecOn with
  | nil => exact .inl (lineAfter_of_stop_lt hs (List.nil_sublist _))
  | append_singleton before op ih =>
    have hprefix : before <+: h.ops := (List.prefix_append _ _).trans hbefore
    have hafter := lineAfter_of_stop_lt hs hbefore.sublist
    obtain ⟨after, hops⟩ := hbefore
    rw [List.append_assoc, List.singleton_append] at hops
    have hget : h.ops[before.length]? = some op := by simp [← hops]
    have htake : h.ops.take before.length = before := by simp [← hops]
    cases hc : op.kind.consumes with
    | false =>
      have hsame : h.lineAfter (before ++ [op]) = h.lineAfter before := by
        simp [lineAfter, List.countP_append, hc]
      rw [hsame]
      exact ih hprefix
    | true =>
      have hsucc : h.lineAfter (before ++ [op]) = h.lineAfter before + 1 := by
        rw [hafter, lineAfter_of_stop_lt hs hprefix.sublist]
        simp [List.countP_append, hc, Nat.add_assoc]
      have hline := line?_of_firstFault?_eq_none hv hf hget hc
      rw [htake, Document.line?_ofText, Option.map_eq_some_iff] at hline
      obtain ⟨raw, hraw, -⟩ := hline
      right
      rw [hsucc]
      exact (List.getElem?_eq_some_iff.1 hraw).1

/-- Positions of a verified hunk and of a later one are ordered as their bytes are. -/
theorem ComesTo.le_of_lineStart_le {o : Options} {t : Text} {k : Hunk} {q : Position}
    (hv : o.verify = true) (hs : h.stop < wordBound) (hsk : k.stop < wordBound)
    (hf : h.firstFault? o (.ofText t) = none) (hhk : h.old.start ≤ k.old.start)
    (hp : h.ComesTo p) (hq : k.ComesTo q)
    (hle : (Document.ofText t).lineStart p.line ≤ (Document.ofText t).lineStart q.line) :
    p ≤ q := by
  have hline := hp.line_le hv hs hf
  obtain ⟨i, rfl, -⟩ := hp.bounds hs
  obtain ⟨j, rfl, hj, -⟩ := hq.bounds hsk
  rw [Position.ofLine_le_ofLine]
  rcases hline with hstart | hin
  · have hi : i = h.old.start := hstart
    omega
  · by_contra hlt
    have := Document.lineStart_strictMono (t := t) (Nat.lt_of_not_le hlt) hin
    exact absurd hle (Nat.not_le.2 this)

end Hunk

namespace Edit

variable {o : Options} {base : Document} {h : Hunk} {edits : List Edit}

/-- The edits of a hunk ascend, and they lie where the walk comes to. -/
theorem ofHunk_terminate_ascending (hn : ∀ op ∈ h.ops, '\n' ∉ op.text) (hs : h.stop < wordBound)
    (hrun : ofHunk o base (h.terminate o.lineEnding) = .ok edits) :
    Ascending edits ∧ ∀ edit ∈ edits, h.ComesTo edit.start ∧ h.ComesTo edit.finish := by
  obtain ⟨⟨q, b⟩, hwalk, hfin⟩ := bind_eq_ok_iff.1 hrun
  obtain rfl : b.finish = edits := Except.ok.inj hfin
  have hcomes : ∀ before, before <+: (h.terminate o.lineEnding).ops →
      h.ComesTo ((Position.anchor h.old.start).advance o.encoding (Op.oldText before)) := by
    intro before hbefore
    rw [Hunk.ops_terminate, List.prefix_iff_eq_take, ← List.map_take] at hbefore
    refine ⟨_, List.take_prefix before.length h.ops, ?_⟩
    rw [← advance_oldText_lineAfter o.encoding o.lineEnding, ← hbefore]
    intro op hop
    exact hn op (List.mem_of_mem_take hop)
  have hstart : h.ComesTo (.anchor h.old.start) := ⟨[], List.nil_prefix .., rfl⟩
  have hword : (Position.anchor h.old.start).line +
      (Op.oldText (h.terminate o.lineEnding).ops).count '\n' < wordBound := by
    rw [Position.anchor_of_lt (Nat.lt_of_le_of_lt h.start_le_stop hs), Hunk.ops_terminate,
      Op.count_oldText_terminate _ hn]
    exact hs
  obtain ⟨hasc, hin⟩ := (Tidy.foldlM (tidy_start hstart) hword hcomes hwalk).finish
  exact ⟨hasc, fun edit hedit => (hin edit hedit).1⟩

/-! ### The edits of many hunks -/

section

variable {hunks : List Hunk} (hn : ∀ h ∈ hunks, ∀ op ∈ h.ops, '\n' ∉ op.text)
  (hs : ∀ h ∈ hunks, h.stop < wordBound)
  (hconv : ofHunks o base (hunks.map (Hunk.terminate o.lineEnding)) = .ok edits)
include hn hs hconv

/-- Each edit comes from a hunk. -/
theorem exists_hunk_of_mem_ofHunks {edit : Edit} (hedit : edit ∈ edits) :
    edit.start ≤ edit.finish ∧ ∃ h ∈ hunks, h.ComesTo edit.start ∧ h.ComesTo edit.finish := by
  rw [ofHunks, inOrder_terminate, List.mapM_map] at hconv
  obtain ⟨ess, hess, hflat⟩ := bind_eq_ok_iff.1 hconv
  obtain rfl : ess.flatten = edits := Except.ok.inj hflat
  obtain ⟨es, hes, hedit⟩ := List.mem_flatten.1 hedit
  obtain ⟨h, hh, hrun⟩ := mem_of_mapM_eq_ok hess hes
  have hh : h ∈ hunks := mem_inOrder.1 hh
  obtain ⟨hasc, hcomes⟩ := ofHunk_terminate_ascending (hn h hh) (hs h hh) hrun
  exact ⟨hasc.1 edit hedit, h, hh, hcomes edit hedit⟩

/-- What holds of two edits that ascend, and of edits of an earlier hunk and a later one, holds of
each edit and those after it. -/
theorem pairwise_of_ofHunks {R : Edit → Edit → Prop} (hsame : ∀ f g, f.finish ≤ g.start → R f g)
    (hother : (inOrder hunks).Pairwise fun h k =>
      ∀ f g : Edit, h.ComesTo f.finish → k.ComesTo g.start → R f g) :
    edits.Pairwise R := by
  rw [ofHunks, inOrder_terminate, List.mapM_map] at hconv
  obtain ⟨ess, hess, hflat⟩ := bind_eq_ok_iff.1 hconv
  obtain rfl : ess.flatten = edits := Except.ok.inj hflat
  have hedits : ∀ h ∈ inOrder hunks, ∀ es, ofHunk o base (h.terminate o.lineEnding) = .ok es →
      Ascending es ∧ ∀ edit ∈ es, h.ComesTo edit.start ∧ h.ComesTo edit.finish := by
    intro h hh es hes
    have hh := mem_inOrder.1 hh
    exact ofHunk_terminate_ascending (hn h hh) (hs h hh) hes
  refine List.pairwise_flatten.2 ⟨?_, ?_⟩
  · intro es hes
    obtain ⟨h, hh, hrun⟩ := mem_of_mapM_eq_ok hess hes
    exact (hedits h hh es hrun).1.2.imp (hsame _ _)
  · refine pairwise_of_mapM_eq_ok hess (List.Pairwise.and_mem.1 hother) ?_
    rintro h k es es' ⟨hh, hk, hR⟩ hes hes' f hf g hg
    exact hR f g ((hedits h hh es hes).2 f hf).2 ((hedits k hk es' hes').2 g hg).1

end

/-- Edits of hunks that are apart from each other ascend. -/
theorem ascending_of_apart {hunks : List Hunk} (hn : ∀ h ∈ hunks, ∀ op ∈ h.ops, '\n' ∉ op.text)
    (hs : ∀ h ∈ hunks, h.stop < wordBound)
    (hconv : ofHunks o base (hunks.map (Hunk.terminate o.lineEnding)) = .ok edits)
    (hapart : Hunk.Apart (inOrder hunks)) : Ascending edits := by
  refine ⟨fun edit hedit => (exists_hunk_of_mem_ofHunks hn hs hconv hedit).1, ?_⟩
  refine pairwise_of_ofHunks hn hs hconv (fun _ _ hle => hle) ?_
  refine (List.Pairwise.and_mem.1 hapart).imp ?_
  rintro h k ⟨hh, hk, hhk⟩ f g hf hg
  obtain ⟨i, hi, -, hstop⟩ := hf.bounds (hs h (mem_inOrder.1 hh))
  obtain ⟨j, hj, hstart, -⟩ := hg.bounds (hs k (mem_inOrder.1 hk))
  rw [hi, hj, Position.ofLine_le_ofLine]
  omega

/-- An edit of a hunk takes out what is between the starts of two lines. -/
theorem byteRange_of_comesTo {edit : Edit} (t : Text) (e : Encoding) (hs : h.stop < wordBound)
    (hstart : h.ComesTo edit.start) (hfinish : h.ComesTo edit.finish)
    (hle : edit.start ≤ edit.finish) :
    edit.byteRange (.ofText t) e = ((Document.ofText t).lineStart edit.start.line,
      (Document.ofText t).lineStart edit.finish.line) := by
  obtain ⟨k, hk, -⟩ := hstart.bounds hs
  obtain ⟨m, hm, -⟩ := hfinish.bounds hs
  rw [hk, hm, Position.ofLine_le_ofLine] at hle
  rw [byteRange, hk, hm, Document.offsetAt_ofLine, Document.offsetAt_ofLine,
    Nat.max_eq_left (Document.lineStart_mono t hle)]
  rfl

/-- **Edits apply exactly if they ascend.**  The edits that a patch makes to a text that it was
verified against can be applied, under every encoding, if and only if they are in ascending order,
and they are where no hunk begins inside another one.  A word has to be able to count the lines of
the text. -/
theorem apply_ok_iff_ascending (o : Options) (hv : o.verify = true) {text patch : Text}
    {hunks : List Hunk} {edits : List Edit} (hparse : Patch.parse patch = .ok hunks)
    (htext : (Text.lines text).length < wordBound) (hconv : ofPatch o text patch = .ok edits) :
    (Hunk.Apart (inOrder hunks) → Ascending edits) ∧
      ∀ e, (∃ result, apply text edits e = .ok result) ↔ Ascending edits := by
  have hn := Patch.newline_notMem_of_parse hparse
  have hs := stop_lt_of_ofPatch hv hparse htext hconv
  rw [ofPatch_eq_ofHunks hparse] at hconv
  have hrange : ∀ edit ∈ edits, edit.start ≤ edit.finish := by
    intro edit hedit
    exact (exists_hunk_of_mem_ofHunks hn hs hconv hedit).1
  refine ⟨ascending_of_apart hn hs hconv, ?_⟩
  intro e
  have hbytes : ∀ edit ∈ edits, edit.byteRange (.ofText text) e =
      ((Document.ofText text).lineStart edit.start.line,
        (Document.ofText text).lineStart edit.finish.line) := by
    intro edit hedit
    obtain ⟨hle, h, hh, hstart, hfinish⟩ := exists_hunk_of_mem_ofHunks hn hs hconv hedit
    exact byteRange_of_comesTo text e (hs h hh) hstart hfinish hle
  rw [apply, applyFrom_eq_ok_iff]
  constructor
  · rintro ⟨-, hpairs⟩
    have hlines : edits.Pairwise fun f g =>
        (Document.ofText text).lineStart f.finish.line ≤
          (Document.ofText text).lineStart g.start.line → f.finish ≤ g.start := by
      refine pairwise_of_ofHunks hn hs hconv (fun _ _ hle _ => hle) ?_
      refine (List.Pairwise.and_mem.1 (pairwise_start_inOrder hunks)).imp ?_
      rintro h k ⟨hh, hk, hhk⟩ f g hf hg
      have hh := mem_inOrder.1 hh
      have hfault := firstFault?_eq_none_of_ofHunks hn hconv h hh
      exact hf.le_of_lineStart_le hv (hs h hh) (hs k (mem_inOrder.1 hk)) hfault hhk hg
    refine ⟨hrange, (List.Pairwise.and_mem.1 (hpairs.and hlines)).imp ?_⟩
    rintro f g ⟨hf, hg, hle, himp⟩
    rw [hbytes f hf, hbytes g hg] at hle
    exact himp hle
  · rintro ⟨-, hpairs⟩
    refine ⟨fun edit _ => Nat.zero_le _, (List.Pairwise.and_mem.1 hpairs).imp ?_⟩
    rintro f g ⟨hf, hg, hle⟩
    rw [hbytes f hf, hbytes g hg]
    exact Document.lineStart_mono text (Position.line_le_of_le hle)

/-- A replacement that is written before an insertion further up. -/
theorem apply_ok_iff_ascending_swapped :
    ∃ edits, ofPatch { verify := true } "a\nb\nc\n".toList
        "@@ -3 +4 @@\n-c\n+C\n@@ -1,0 +2 @@\n+x\n".toList = .ok edits ∧
      Ascending edits ∧ ∀ e, ∃ result, apply "a\nb\nc\n".toList edits e = .ok result := by
  have hparse : Patch.parse "@@ -3 +4 @@\n-c\n+C\n@@ -1,0 +2 @@\n+x\n".toList =
      .ok [⟨⟨2, 1⟩, ⟨3, 1⟩, [⟨.delete, ['c']⟩, ⟨.insert, ['C']⟩]⟩,
        ⟨⟨1, 0⟩, ⟨1, 1⟩, [⟨.insert, ['x']⟩]⟩] := by decide
  have hconv : ofPatch { verify := true } "a\nb\nc\n".toList
        "@@ -3 +4 @@\n-c\n+C\n@@ -1,0 +2 @@\n+x\n".toList =
      .ok [.insert (.ofLine 1) ['x', '\n'], .replace (.ofLine 2) (.ofLine 3) ['C', '\n']] := by
    rw [ofPatch_eq_ofHunks hparse, ofHunks, inOrder_terminate, inOrder_pair (by decide)]
    rfl
  obtain ⟨hapart, hiff⟩ := apply_ok_iff_ascending _ rfl hparse (by decide) hconv
  have hasc := hapart (by rw [inOrder_pair (by decide)]; decide)
  exact ⟨_, hconv, hasc, fun e => (hiff e).2 hasc⟩

/-- A hunk inside another one: both delete lines that the text has, and the ranges do not meet, but
the later line is deleted first. -/
theorem not_ascending_nested :
    ∃ edits, ofPatch { verify := true } "a\nb\nc\n".toList
        "@@ -1,3 +1,2 @@\n a\n b\n-c\n@@ -2 +1,0 @@\n-b\n".toList = .ok edits ∧
      ¬ Ascending edits ∧
      apply "a\nb\nc\n".toList edits .utf16 = .error (.overlap (.ofLine 1)) := by
  have hparse : Patch.parse "@@ -1,3 +1,2 @@\n a\n b\n-c\n@@ -2 +1,0 @@\n-b\n".toList =
      .ok [⟨⟨0, 3⟩, ⟨0, 2⟩, [⟨.keep, ['a']⟩, ⟨.keep, ['b']⟩, ⟨.delete, ['c']⟩]⟩,
        ⟨⟨1, 1⟩, ⟨1, 0⟩, [⟨.delete, ['b']⟩]⟩] := by decide
  have hconv : ofPatch { verify := true } "a\nb\nc\n".toList
        "@@ -1,3 +1,2 @@\n a\n b\n-c\n@@ -2 +1,0 @@\n-b\n".toList =
      .ok [.delete (.ofLine 2) (.ofLine 3), .delete (.ofLine 1) (.ofLine 2)] := by
    rw [ofPatch_eq_ofHunks hparse, ofHunks, inOrder_terminate, inOrder_of_pairwise (by decide)]
    rfl
  exact ⟨_, hconv, by decide, by decide⟩

end Edit

end HunkEdits
