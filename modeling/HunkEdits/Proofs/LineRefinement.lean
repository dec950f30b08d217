import HunkEdits.Proofs.Carry
import HunkEdits.Proofs.Outcome
import HunkEdits.Proofs.Resolution

/-!
# Edits and patched lines

Converting a patch and applying the edits does what patching the raw lines does, on every text and
under every encoding: a mixture of terminators, an unterminated last line, and hunks that reach past
the end of the text included (`Edit.apply_eq_patchText`).

The bridge is that the start of a line resolves to the bytes of the raw lines before it, and that
whole lines lead from the start of a line to the start of a line.
-/

namespace HunkEdits

variable {o : Options} {e : Encoding} {ending : LineEnding} {ops : List Op} {t : Text}

/-! ### One hunk -/

namespace Op

theorem patchLines_keep {op : Op} (hk : op.kind = .keep) (raw : List Text) :
    patchLines ending (op :: ops) raw =
      (raw.take 1 ++ (patchLines ending ops (raw.drop 1)).1,
        (patchLines ending ops (raw.drop 1)).2) := by
  rw [patchLines, hk]

theorem patchLines_delete {op : Op} (hk : op.kind = .delete) (raw : List Text) :
    patchLines ending (op :: ops) raw = patchLines ending ops (raw.drop 1) := by
  rw [patchLines, hk]

theorem patchLines_insert {op : Op} (hk : op.kind = .insert) (raw : List Text) :
    patchLines ending (op :: ops) raw =
      ((op.text ++ ending.text) :: (patchLines ending ops raw).1,
        (patchLines ending ops raw).2) := by
  rw [patchLines, hk]

theorem snd_patchLines (ops : List Op) (raw : List Text) :
    (patchLines ending ops raw).2 = raw.drop (ops.countP fun op => op.kind.consumes) := by
  induction ops generalizing raw with
  | nil => rfl
  | cons op ops ih =>
    rw [List.countP_cons]
    cases hk : op.kind with
    | keep => rw [patchLines_keep hk, ih, List.drop_drop, Nat.add_comm]; rfl
    | delete => rw [patchLines_delete hk, ih, List.drop_drop, Nat.add_comm]; rfl
    | insert => rw [patchLines_insert hk]; exact ih raw

/-- Operations on whole lines carry the raw lines they stand for to the patched ones, as long as the
count of lines stays within a word. -/
theorem carries_patchLines (e : Encoding) (hn : ∀ op ∈ ops, '\n' ∉ op.text) {l : Nat}
    (hl : l + (ops.countP fun op => op.kind.consumes) < wordBound) :
    Carries o (.ofText t) e (.ofLine l) (ops.map (terminate o.lineEnding))
      (((Text.rawLines t).drop l).take (ops.countP fun op => op.kind.consumes)).flatten
      (patchLines o.lineEnding ops ((Text.rawLines t).drop l)).1.flatten
      (.ofLine (l + ops.countP fun op => op.kind.consumes)) := by
  induction ops generalizing l with
  | nil => exact .nil _
  | cons op ops ih =>
    obtain ⟨hop, hn⟩ := List.forall_mem_cons.1 hn
    rw [List.map_cons]
    by_cases hc : op.kind.consumes = true
    · -- an operation that stands for a line takes the first raw line and leaves the others
      rw [List.countP_cons_of_pos (by exact hc)] at hl ⊢
      have hend : l + ((ops.countP fun op => op.kind.consumes) + 1) =
          l + 1 + ops.countP fun op => op.kind.consumes := by omega
      have hnext : l + 1 < wordBound := by omega
      have hadv : (Position.ofLine l).advance o.encoding (terminate o.lineEnding op).text =
          .ofLine (l + 1) :=
        (Position.advance_of_isLine (Text.isLine_terminated o.lineEnding hop)).trans
          (Position.anchor_of_lt hnext)
      have hoff : (Document.ofText t).offsetAt e
          ((Position.ofLine l).advance o.encoding (terminate o.lineEnding op).text) =
          (Document.ofText t).offsetAt e (.ofLine l) +
            Text.bytes (((Text.rawLines t).drop l).take 1).flatten := by
        rw [hadv, Document.offsetAt_ofLine, Document.offsetAt_ofLine, Document.lineStart_add]
      have hdrop : ((Text.rawLines t).drop l).drop 1 = (Text.rawLines t).drop (l + 1) :=
        List.drop_drop
      have htake (n : Nat) : (((Text.rawLines t).drop l).take (n + 1)).flatten =
          (((Text.rawLines t).drop l).take 1).flatten ++
            (((Text.rawLines t).drop (l + 1)).take n).flatten := by
        rw [Nat.add_comm n, List.take_add, List.flatten_append, hdrop]
      rw [hend] at hl ⊢
      have ih' := ih hn hl
      rw [← hadv] at ih'
      rw [htake]
      cases hk : op.kind with
      | keep =>
        rw [patchLines_keep hk, hdrop, List.flatten_append]
        exact .keep _ hk hoff ih'
      | delete =>
        rw [patchLines_delete hk, hdrop]
        exact .delete _ hk hoff ih'
      | insert => simp [hk, OpKind.consumes] at hc
    · have hk : op.kind = .insert := by
        cases hk : op.kind <;> simp [hk, OpKind.consumes] at hc ⊢
      rw [List.countP_cons_of_neg (by exact hc)] at hl ⊢
      rw [patchLines_insert hk]
      exact .insert hk (ih hn hl)

end Op

/-! ### Many hunks -/

namespace Hunk

theorem start_le_stop (h : Hunk) : h.old.start ≤ h.stop :=
  Nat.le_add_right _ _

theorem apart_of_isChain {hunks : List Hunk}
    (h : hunks.IsChain fun h k => h.stop ≤ k.old.start) : Apart hunks := by
  have : Trans (fun h k : Hunk => h.stop ≤ k.old.start) (fun h k : Hunk => h.stop ≤ k.old.start)
      fun h k : Hunk => h.stop ≤ k.old.start := by
    constructor
    intro h k m hhk hkm
    unfold Hunk.stop at hhk hkm ⊢
    omega
  exact List.isChain_iff_pairwise.1 h

theorem patchFrom_cons (ending : LineEnding) (done : Nat) (h : Hunk) (hunks : List Hunk)
    (raw : List Text) : patchFrom ending done (h :: hunks) raw =
      raw.take (h.old.start - done) ++
        (Op.patchLines ending h.ops (raw.drop (h.old.start - done))).1 ++
          patchFrom ending h.stop hunks
            (Op.patchLines ending h.ops (raw.drop (h.old.start - done))).2 := by
  rw [patchFrom]

end Hunk

namespace Edit

/-- The edits of hunks that come after line `done` patch the raw lines from there on. -/
theorem rewrites_patchFrom {base : Document} (e : Encoding) {hunks : List Hunk}
    {edits : List (List Edit)} {done : Nat} (hn : ∀ h ∈ hunks, ∀ op ∈ h.ops, '\n' ∉ op.text)
    (hs : ∀ h ∈ hunks, h.stop < wordBound)
    (hdone : ∀ h ∈ hunks, done ≤ h.old.start) (hapart : Hunk.Apart hunks)
    (hrun : hunks.mapM (ofHunk o base ∘ Hunk.terminate o.lineEnding) = .ok edits) :
    Rewrites (.ofText t) e ((Document.ofText t).lineStart done) edits.flatten
      ((Text.rawLines t).drop done).flatten
      (Hunk.patchFrom o.lineEnding done hunks ((Text.rawLines t).drop done)).flatten := by
  induction hunks generalizing done edits with
  | nil =>
    obtain rfl : [] = edits := Except.ok.inj hrun
    exact .nil _ _ _ _
  | cons h hunks ih =>
    obtain ⟨es, ess, hes, hess, rfl⟩ := mapM_cons_eq_ok_iff.1 hrun
    obtain ⟨hstop, hapart⟩ := List.pairwise_cons.1 hapart
    obtain ⟨hh, hn⟩ := List.forall_mem_cons.1 hn
    obtain ⟨hword, hs⟩ := List.forall_mem_cons.1 hs
    have ih := ih hn hs hstop hapart hess
    have hstart : done + (h.old.start - done) = h.old.start := by
      have := hdone h (List.mem_cons_self ..)
      omega
    have hdrop : ((Text.rawLines t).drop done).drop (h.old.start - done) =
        (Text.rawLines t).drop h.old.start := by
      rw [List.drop_drop, hstart]
    have hrest : ((Text.rawLines t).drop h.old.start).drop h.consumed =
        (Text.rawLines t).drop h.stop := List.drop_drop
    have hold : ((Text.rawLines t).drop done).flatten =
        (((Text.rawLines t).drop done).take (h.old.start - done)).flatten ++
          ((((Text.rawLines t).drop h.old.start).take h.consumed).flatten ++
            ((Text.rawLines t).drop h.stop).flatten) := by
      rw [← List.flatten_append, ← hrest, List.take_append_drop, ← List.flatten_append, ← hdrop,
        List.take_append_drop]
    have hcarry := Op.carries_patchLines (o := o) (t := t) e hh hword
    rw [← Document.offsetAt_ofLine _ e] at ih
    have hstartWord : h.old.start < wordBound := Nat.lt_of_le_of_lt h.start_le_stop hword
    have hall := ofHunk_rewrites (h := h.terminate o.lineEnding) hstartWord hcarry hes ih
    rw [Hunk.patchFrom_cons, hdrop, Op.snd_patchLines, ← Hunk.consumed, hrest, hold,
      List.flatten_cons, List.flatten_append, List.flatten_append, List.append_assoc]
    refine Rewrites.keep ?_
    rw [← Document.lineStart_add, hstart]
    exact hall

/-- Applying the edits of hunks that are apart from each other patches the lines of the text. -/
theorem apply_ofHunks_terminate {base : Document} (e : Encoding) {hunks : List Hunk}
    {edits : List Edit} (hn : ∀ h ∈ hunks, ∀ op ∈ h.ops, '\n' ∉ op.text)
    (hs : ∀ h ∈ hunks, h.stop < wordBound)
    (hapart : Hunk.Apart (inOrder hunks))
    (hconv : ofHunks o base (hunks.map (Hunk.terminate o.lineEnding)) = .ok edits) :
    apply t edits e = .ok (Hunk.patchText o.lineEnding (inOrder hunks) t) := by
  rw [ofHunks, inOrder_terminate, List.mapM_map] at hconv
  obtain ⟨ess, hess, hconv⟩ := bind_eq_ok_iff.1 hconv
  obtain rfl : ess.flatten = edits := Except.ok.inj hconv
  have hn' : ∀ h ∈ inOrder hunks, ∀ op ∈ h.ops, '\n' ∉ op.text := by
    intro h hh
    exact hn h (mem_inOrder.1 hh)
  have hs' : ∀ h ∈ inOrder hunks, h.stop < wordBound := by
    intro h hh
    exact hs h (mem_inOrder.1 hh)
  have hzero : ∀ h ∈ inOrder hunks, 0 ≤ h.old.start := by
    intro h _
    exact Nat.zero_le _
  have h := rewrites_patchFrom (t := t) e hn' hs' hzero hapart hess
  rw [Document.lineStart_ofText, List.drop_zero, Text.flatten_rawLines] at h
  exact h.apply_eq

/-- Hunks that are apart from each other are in ascending order already. -/
theorem apply_ofHunks_of_apart {base : Document} (e : Encoding) {hunks : List Hunk}
    {edits : List Edit} (hn : ∀ h ∈ hunks, ∀ op ∈ h.ops, '\n' ∉ op.text)
    (hs : ∀ h ∈ hunks, h.stop < wordBound)
    (hapart : Hunk.Apart hunks)
    (hconv : ofHunks o base (hunks.map (Hunk.terminate o.lineEnding)) = .ok edits) :
    apply t edits e = .ok (Hunk.patchText o.lineEnding hunks t) := by
  have horder := inOrder_of_apart hapart
  have happly := apply_ofHunks_terminate (t := t) e hn hs (by rwa [horder]) hconv
  rwa [horder] at happly

/-- **Converting and applying is patching lines.**  Where hunks that are apart from each other have
edits, applying the edits gives the text whose raw lines are patched, if the lines of the hunks can
be counted in words. -/
theorem apply_eq_patchText (o : Options) (e : Encoding) {text patch : Text} {hunks : List Hunk}
    {edits : List Edit} (hparse : Patch.parse patch = .ok hunks)
    (hs : ∀ h ∈ hunks, h.stop < wordBound)
    (hapart : (inOrder hunks).IsChain fun h k => h.stop ≤ k.old.start)
    (hconv : ofPatch o text patch = .ok edits) :
    apply text edits e = .ok (Hunk.patchText o.lineEnding (inOrder hunks) text) := by
  rw [ofPatch_eq_ofHunks hparse] at hconv
  exact apply_ofHunks_terminate e (Patch.newline_notMem_of_parse hparse) hs
    (Hunk.apart_of_isChain hapart) hconv

/-- Hunks that are out of order, in a text with three kinds of line ends and no last one. -/
theorem apply_eq_patchText_mixed :
    ∃ edits, ofPatch { lineEnding := .crlf } "a\r\nb\nc\rd".toList
        "@@ -3 +2 @@\n-z\n+é\n@@ -1 +0,0 @@\n-a\n".toList = .ok edits ∧
      apply "a\r\nb\nc\rd".toList edits .utf8 = .ok "b\né\r\n".toList := by
  have hparse : Patch.parse "@@ -3 +2 @@\n-z\n+é\n@@ -1 +0,0 @@\n-a\n".toList =
      .ok [⟨⟨2, 1⟩, ⟨1, 1⟩, [⟨.delete, ['z']⟩, ⟨.insert, ['é']⟩]⟩,
        ⟨⟨0, 1⟩, ⟨0, 0⟩, [⟨.delete, ['a']⟩]⟩] := by decide
  have hconv : ofPatch { lineEnding := .crlf } "a\r\nb\nc\rd".toList
        "@@ -3 +2 @@\n-z\n+é\n@@ -1 +0,0 @@\n-a\n".toList =
      .ok [.delete (.ofLine 0) (.ofLine 1),
        .replace (.ofLine 2) (.ofLine 3) ['é', '\r', '\n']] := by
    rw [ofPatch_eq_ofHunks hparse, ofHunks, inOrder_terminate, inOrder_pair (by decide)]
    rfl
  refine ⟨_, hconv, (apply_eq_patchText _ _ hparse (by decide) ?_ hconv).trans ?_⟩
  · rw [inOrder_pair (by decide)]
    decide
  · rw [inOrder_pair (by decide)]
    decide

end Edit

end HunkEdits
