import HunkEdits.Proofs.LineTable

/-!
# The last line

The lines of a text after a patch are those that its hunks say (`Hunk.reviseFrom`), whether the text
ends in a terminator or not, with one exception: where the last line has none and stays, what is
inserted behind it is put on the same line (`Hunk.Glues`, `Edit.lines_apply_eq_iff`).
-/

namespace HunkEdits

namespace Op

variable {ending : LineEnding} {ops : List Op} {raw : List Text}

/-! ### Contents -/

theorem oldTexts_prefix {ls : List Text} {line : Nat}
    (h : ∀ s ∈ placed line ops, s.2.kind.consumes = true → ls[s.1]? = some s.2.text) :
    oldTexts ops <+: ls.drop line := by
  induction ops generalizing line with
  | nil => exact List.nil_prefix
  | cons op ops ih =>
    rw [placed, List.forall_mem_cons] at h
    obtain ⟨hop, hops⟩ := h
    rw [oldTexts_cons]
    cases hc : op.kind.consumes with
    | false =>
      rw [hc, if_neg Bool.false_ne_true] at hops
      exact ih hops
    | true =>
      rw [hc, if_pos rfl] at hops
      obtain ⟨hlt, hline⟩ := List.getElem?_eq_some_iff.1 (hop hc)
      rw [List.drop_eq_getElem_cons hlt]
      exact List.cons_prefix_cons.2 ⟨hline.symm, ih hops⟩

/-- Operations that stand for the lines they are made on leave their new texts. -/
theorem map_lineContent_patchLines (hclean : ∀ op ∈ ops, Text.IsClean op.text)
    (hraw : oldTexts ops <+: raw.map Text.lineContent) :
    (patchLines ending ops raw).1.map Text.lineContent = newTexts ops := by
  induction ops generalizing raw with
  | nil => rfl
  | cons op ops ih =>
    obtain ⟨hop, hclean⟩ := List.forall_mem_cons.1 hclean
    rw [oldTexts_cons] at hraw
    rw [newTexts_cons]
    cases hk : op.kind with
    | insert =>
      rw [hk] at hraw
      rw [patchLines_insert hk, List.map_cons, hop.lineContent_append, ih hclean hraw]
      rfl
    | keep =>
      rw [hk] at hraw
      cases raw with
      | nil => simp [OpKind.consumes] at hraw
      | cons r raw =>
        obtain ⟨hr, hraw⟩ := List.cons_prefix_cons.1 hraw
        rw [patchLines_keep hk, List.map_append]
        simp [OpKind.produces, ← hr, ih hclean hraw]
    | delete =>
      rw [hk] at hraw
      cases raw with
      | nil => simp [OpKind.consumes] at hraw
      | cons r raw =>
        obtain ⟨-, hraw⟩ := List.cons_prefix_cons.1 hraw
        rw [patchLines_delete hk]
        exact ih hclean hraw

end Op

/-! ### Hunks -/

namespace Hunk

variable {ending : LineEnding} {hunks : List Hunk} {done : Nat}

/-- The lines that hunks leave of those after the first `done`: lines between hunks stay, and those
of a hunk give way to its kept and inserted texts. -/
def reviseFrom (done : Nat) : List Hunk → List Text → List Text
  | [], ls => ls
  | h :: hunks, ls =>
    ls.take (h.old.start - done) ++ Op.newTexts h.ops ++
      reviseFrom h.stop hunks (ls.drop (h.stop - done))

/-- The operations of a hunk with the lines they stand at. -/
def placed (h : Hunk) : List (Nat × Op) :=
  Op.placed h.old.start h.ops

/-- Whether hunks put something behind a last line that has no terminator and stays. -/
def Glues (t : Text) (hunks : List Hunk) : Prop :=
  Text.IsOpen t ∧ Op.FollowsLast (Text.lines t).length (hunks.flatMap placed)

instance (t : Text) (hunks : List Hunk) : Decidable (Glues t hunks) :=
  inferInstanceAs (Decidable (_ ∧ _))

/-- The operations of hunks in one list, with those that keep the lines between hunks. -/
def script (done : Nat) : List Hunk → List Op
  | [] => []
  | h :: hunks => List.replicate (h.old.start - done) ⟨.keep, []⟩ ++ h.ops ++ script h.stop hunks

theorem patchFrom_eq_pieces (ending : LineEnding) (done : Nat) (hunks : List Hunk)
    (raw : List Text) :
    patchFrom ending done hunks raw = Op.pieces ending (script done hunks) raw := by
  induction hunks generalizing done raw with
  | nil => rfl
  | cons h hunks ih =>
    rw [patchFrom_cons, ih, script, Op.pieces, Op.pieces, Op.patchLines_append,
      Op.patchLines_append, Op.patchLines_replicate_keep]
    simp only [List.append_assoc]

theorem newline_notMem_script (done : Nat) (hn : ∀ h ∈ hunks, ∀ op ∈ h.ops, '\n' ∉ op.text) :
    ∀ op ∈ script done hunks, '\n' ∉ op.text := by
  induction hunks generalizing done with
  | nil => simp [script]
  | cons h hunks ih =>
    obtain ⟨hh, hn⟩ := List.forall_mem_cons.1 hn
    rw [script, List.forall_mem_append, List.forall_mem_append]
    refine ⟨⟨?_, hh⟩, ih _ hn⟩
    intro op hop
    rw [List.eq_of_mem_replicate hop]
    exact List.not_mem_nil

/-- What changes in the lines of a text stands where its hunk says. -/
theorem mem_placed_script_iff (hdone : ∀ h ∈ hunks, done ≤ h.old.start) (hapart : Apart hunks)
    {s : Nat × Op} (hk : s.2.kind ≠ .keep) :
    s ∈ Op.placed done (script done hunks) ↔ s ∈ hunks.flatMap placed := by
  induction hunks generalizing done with
  | nil => simp [script, Op.placed]
  | cons h hunks ih =>
    obtain ⟨hstop, hapart⟩ := List.pairwise_cons.1 hapart
    have hstart : done + (h.old.start - done) = h.old.start := by
      have := hdone h (List.mem_cons_self ..)
      omega
    have hgap : s ∉ Op.placed done (List.replicate (h.old.start - done) ⟨.keep, []⟩) := by
      intro hs
      rw [List.eq_of_mem_replicate (Op.mem_of_mem_placed hs)] at hk
      exact hk rfl
    have hcount : (List.replicate (h.old.start - done) (⟨.keep, []⟩ : Op)).countP
        (fun op => op.kind.consumes) = h.old.start - done := by
      simp [List.countP_replicate, OpKind.consumes]
    rw [script, Op.placed_append, Op.placed_append, List.countP_append, hcount, ← Nat.add_assoc,
      hstart, List.flatMap_cons, List.append_assoc, List.mem_append, List.mem_append,
      List.mem_append, or_iff_right hgap]
    exact or_congr_right (ih hstop hapart)

theorem glues_iff {t : Text} (hapart : Apart (Edit.inOrder hunks)) :
    Glues t hunks ↔ Text.IsOpen t ∧
      Op.FollowsLast (Text.rawLines t).length (Op.placed 0 (script 0 (Edit.inOrder hunks))) := by
  have hmem : ∀ s : Nat × Op, s.2.kind ≠ .keep →
      (s ∈ hunks.flatMap placed ↔ s ∈ Op.placed 0 (script 0 (Edit.inOrder hunks))) := by
    intro s hk
    rw [mem_placed_script_iff (fun _ _ => Nat.zero_le _) hapart hk]
    simp only [List.mem_flatMap, Edit.mem_inOrder]
  rw [Glues, Text.lines, List.length_map]
  constructor
  · rintro ⟨hopen, hfollows⟩
    exact ⟨hopen, hfollows.of_mem_iff hmem⟩
  · rintro ⟨hopen, hfollows⟩
    exact ⟨hopen, hfollows.of_mem_iff fun s hk => (hmem s hk).symm⟩

/-- Hunks that stand for lines of a text leave the lines that they say. -/
theorem map_lineContent_patchFrom (ending : LineEnding) {raw : List Text}
    (hclean : ∀ h ∈ hunks, ∀ op ∈ h.ops, Text.IsClean op.text)
    (hdone : ∀ h ∈ hunks, done ≤ h.old.start) (hapart : Apart hunks)
    (hold : ∀ h ∈ hunks, Op.oldTexts h.ops <+: (raw.map Text.lineContent).drop h.old.start) :
    (patchFrom ending done hunks (raw.drop done)).map Text.lineContent =
      reviseFrom done hunks ((raw.map Text.lineContent).drop done) := by
  induction hunks generalizing done with
  | nil => rw [patchFrom, reviseFrom, List.map_drop]
  | cons h hunks ih =>
    obtain ⟨hh, hclean⟩ := List.forall_mem_cons.1 hclean
    obtain ⟨hstop, hapart⟩ := List.pairwise_cons.1 hapart
    obtain ⟨hstart, hdone⟩ := List.forall_mem_cons.1 hdone
    obtain ⟨hlines, hold⟩ := List.forall_mem_cons.1 hold
    have hgap : (raw.drop done).drop (h.old.start - done) = raw.drop h.old.start := by
      rw [List.drop_drop, Nat.add_sub_cancel' hstart]
    have hrest : (raw.drop h.old.start).drop h.consumed = raw.drop h.stop := List.drop_drop
    have hle : done ≤ h.stop := Nat.le_trans hstart (Nat.le_add_right _ _)
    have hlast : ((raw.map Text.lineContent).drop done).drop (h.stop - done) =
        (raw.map Text.lineContent).drop h.stop := by
      rw [List.drop_drop, Nat.add_sub_cancel' hle]
    rw [← List.map_drop] at hlines
    rw [patchFrom_cons, hgap, Op.snd_patchLines, ← consumed, hrest, reviseFrom, hlast,
      List.map_append, List.map_append, ih hclean hstop hapart hold,
      Op.map_lineContent_patchLines hh hlines, List.map_take, List.map_drop]

end Hunk

theorem Document.line?_eq_getElem?_lines {t : Text} (h : '\r' ∉ t) (k : Nat) :
    (ofText t).line? k = (Text.lines t)[k]? := by
  refine line?_eq_getElem?_lines_of_not_last ?_
  rintro ⟨-, hlast⟩
  exact h (List.mem_of_getLast? hlast)

/-- A verified hunk stands for lines of the text. -/
theorem Hunk.oldTexts_prefix {o : Options} {t : Text} {h : Hunk} (hv : o.verify = true)
    (hword : h.stop < wordBound) (ht : '\r' ∉ t) (hf : h.firstFault? o (.ofText t) = none) :
    Op.oldTexts h.ops <+: (Text.lines t).drop h.old.start := by
  refine Op.oldTexts_prefix ?_
  intro s hs hc
  obtain ⟨before, after, hops, hline⟩ := Op.mem_placed_iff.1 hs
  have hget : h.ops[before.length]? = some s.2 := by simp [hops]
  have htake : h.ops.take before.length = before := by simp [hops]
  have hfound := line?_of_firstFault?_eq_none hv hf hget hc
  have hbefore : before.Sublist h.ops := hops ▸ List.sublist_append_left _ _
  rwa [htake, lineAfter_of_stop_lt hword hbefore, ← hline, Document.line?_eq_getElem?_lines ht]
    at hfound

namespace Edit

/-- **Which lines a patch leaves.**  Where hunks that are apart from each other were verified, their
edits can be applied, and the lines of the result are those that the hunks say if and only if no
inserted line is put behind a last line that has no terminator and stays.  A word has to be able to
count the lines of the text. -/
theorem lines_apply_eq_iff (o : Options) (hv : o.verify = true) {text patch : Text}
    {hunks : List Hunk} {edits : List Edit} (hword : (Text.lines text).length < wordBound)
    (htext : '\r' ∉ text) (hpatch : '\r' ∉ patch)
    (hparse : Patch.parse patch = .ok hunks) (hapart : Hunk.Apart (inOrder hunks))
    (hconv : ofPatch o text patch = .ok edits) (e : Encoding) :
    ∃ result, apply text edits e = .ok result ∧
      (Text.lines result = Hunk.reviseFrom 0 (inOrder hunks) (Text.lines text) ↔
        ¬ Hunk.Glues text hunks) := by
  have hn := Patch.newline_notMem_of_parse hparse
  have hclean : ∀ h ∈ inOrder hunks, ∀ op ∈ h.ops, Text.IsClean op.text := by
    intro h hh op hop
    have hh := mem_inOrder.1 hh
    refine ⟨hn h hh op hop, ?_⟩
    intro hr
    exact hpatch (Patch.mem_of_mem_parse hparse hh hop (List.mem_of_getLast? hr))
  have hs := stop_lt_of_ofPatch hv hparse hword hconv
  rw [ofPatch_eq_ofHunks hparse] at hconv
  have hold : ∀ h ∈ inOrder hunks, Op.oldTexts h.ops <+: (Text.lines text).drop h.old.start := by
    intro h hh
    have hh := mem_inOrder.1 hh
    have hfault := firstFault?_eq_none_of_ofHunks hn hconv h hh
    exact Hunk.oldTexts_prefix hv (hs h hh) htext hfault
  have hlines := Hunk.map_lineContent_patchFrom o.lineEnding hclean
    (fun h _ => Nat.zero_le h.old.start) hapart hold
  rw [List.drop_zero, List.drop_zero, Hunk.patchFrom_eq_pieces] at hlines
  have hscript := Hunk.newline_notMem_script 0 fun h hh => hn h (mem_inOrder.1 hh)
  obtain ⟨hsame, hless⟩ := Op.rawLines_pieces o.lineEnding hscript text
  refine ⟨_, apply_ofHunks_terminate e hn hs hapart hconv, ?_⟩
  rw [Hunk.glues_iff hapart, Hunk.patchText, Hunk.patchFrom_eq_pieces, Text.lines, Text.lines,
    ← hlines]
  constructor
  · intro heq hglued
    have := congrArg List.length heq
    rw [List.length_map, List.length_map] at this
    have := hless hglued
    omega
  · intro hfree
    rw [hsame hfree]

/-- A last line without a terminator that two lines replace. -/
theorem lines_apply_eq_iff_replaced :
    ∃ edits, ofPatch { lineEnding := .lf, verify := true } "a\nb".toList
        "@@ -2 +2,2 @@\n-b\n\\ No newline at end of file\n+c\n+d\n".toList = .ok edits ∧
      ∀ e, ∃ result, apply "a\nb".toList edits e = .ok result ∧
        Text.lines result = [['a'], ['c'], ['d']] := by
  have hparse : Patch.parse
        "@@ -2 +2,2 @@\n-b\n\\ No newline at end of file\n+c\n+d\n".toList =
      .ok [⟨⟨1, 1⟩, ⟨1, 2⟩, [⟨.delete, ['b']⟩, ⟨.insert, ['c']⟩, ⟨.insert, ['d']⟩]⟩] := by decide
  have hconv : ofPatch { lineEnding := .lf, verify := true } "a\nb".toList
        "@@ -2 +2,2 @@\n-b\n\\ No newline at end of file\n+c\n+d\n".toList =
      .ok [.replace (.ofLine 1) (.ofLine 2) ['c', '\n', 'd', '\n']] := by
    rw [ofPatch_eq_ofHunks hparse, ofHunks, inOrder_terminate, inOrder_of_pairwise (by decide)]
    rfl
  refine ⟨_, hconv, fun e => ?_⟩
  obtain ⟨result, hresult, hlines⟩ := lines_apply_eq_iff _ rfl (by decide) (by decide) (by decide)
    hparse (by rw [inOrder_of_pairwise (by decide)]; decide) hconv e
  refine ⟨result, hresult, (hlines.2 (by decide)).trans ?_⟩
  rw [inOrder_of_pairwise (by decide)]
  rfl

/-- A last line without a terminator that stays, and a line inserted behind it. -/
theorem lines_apply_glued :
    ∃ edits, ofPatch { lineEnding := .lf, verify := true } "a\nb".toList
        "@@ -2 +2,2 @@\n b\n+c\n\\ No newline at end of file\n".toList = .ok edits ∧
      ∃ result, apply "a\nb".toList edits .utf16 = .ok result ∧
        Text.lines result = [['a'], ['b', 'c']] ∧
        Hunk.reviseFrom 0 [⟨⟨1, 1⟩, ⟨1, 2⟩, [⟨.keep, ['b']⟩, ⟨.insert, ['c']⟩]⟩]
          (Text.lines "a\nb".toList) = [['a'], ['b'], ['c']] := by
  have hparse : Patch.parse "@@ -2 +2,2 @@\n b\n+c\n\\ No newline at end of file\n".toList =
      .ok [⟨⟨1, 1⟩, ⟨1, 2⟩, [⟨.keep, ['b']⟩, ⟨.insert, ['c']⟩]⟩] := by decide
  have hconv : ofPatch { lineEnding := .lf, verify := true } "a\nb".toList
        "@@ -2 +2,2 @@\n b\n+c\n\\ No newline at end of file\n".toList =
      .ok [.insert (.ofLine 2) ['c', '\n']] := by
    rw [ofPatch_eq_ofHunks hparse, ofHunks, inOrder_terminate, inOrder_of_pairwise (by decide)]
    rfl
  exact ⟨_, hconv, _, rfl, by decide, by decide⟩

end Edit

end HunkEdits
