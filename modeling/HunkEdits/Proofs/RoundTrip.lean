import HunkEdits.Proofs.LineRefinement
import HunkEdits.Proofs.Printing
import HunkEdits.Proofs.Revision

/-!
# Round trip

A patch that is printed for a revision can be read and converted, and applying the edits to the old
lines gives the new ones (`Edit.apply_ofPatch_write`).
-/

namespace HunkEdits

open Patch (joinLines write)

namespace Revision

/-- Patching the old lines of a revision by its hunks gives the new ones. -/
theorem patchText_hunks (ending : LineEnding) {r : Revision} (hr : ∀ l ∈ r.before, '\n' ∉ l) :
    Hunk.patchText ending r.hunks (joinLines ending r.before) = joinLines ending r.after := by
  rw [Hunk.patchText, Text.rawLines_joinLines ending hr, hunks]
  exact (congrArg List.flatten (patchFrom_hunksFrom 0 0 r.changes r.rest)).trans
    (List.flatMap_def ..).symm

end Revision

namespace Edit

/-- **Round trip.**  A patch that is printed for a revision of clean lines in which deletions come
first has edits, and applying them to the old lines gives the new lines, under every encoding.  A
word has to be able to count the old lines. -/
theorem apply_ofPatch_write (o : Options) (printed : LineEnding) (names : Option (Text × Text))
    (r : Revision) (hr : r.IsClean) (hnames : ∀ n ∈ names, Text.IsClean n.1 ∧ Text.IsClean n.2)
    (hword : r.before.length < wordBound) (hfit : ∀ h ∈ r.hunks, h.Fits)
    (hord : ∀ c ∈ r.changes, Op.DeletesFirst c.ops) :
    ∃ edits, ofPatch o (joinLines o.lineEnding r.before) (write printed names r.hunks) =
        .ok edits ∧
      ∀ e, apply (joinLines o.lineEnding r.before) edits e =
        .ok (joinLines o.lineEnding r.after) := by
  have hclean : ∀ h ∈ r.hunks, h.IsClean := by
    intro h hh
    exact Revision.isClean_of_mem_hunks hr hh
  have hn : ∀ h ∈ r.hunks, ∀ op ∈ h.ops, '\n' ∉ op.text := by
    intro h hh op hop
    exact (hclean h hh op hop).1
  have hbefore : ∀ l ∈ r.before, '\n' ∉ l := by
    intro l hl
    exact (hr l (List.mem_append_left _ hl)).1
  have hstop : ∀ h ∈ r.hunks, h.stop < wordBound := by
    intro h hh
    exact Nat.lt_of_le_of_lt (Revision.stop_le_of_mem_hunks hh) hword
  have hapart : Hunk.Apart r.hunks := Revision.apart_hunksFrom 0 0 r.changes
  have hfault : ∀ h ∈ r.hunks,
      h.firstFault? o (.ofText (joinLines o.lineEnding r.before)) = none := by
    intro h hh
    obtain ⟨c, hc, hops⟩ := Revision.exists_change_of_mem_hunksFrom hh
    exact Revision.firstFault?_eq_none o hr hword hh (hops ▸ hord c hc)
  obtain ⟨edits, hedits⟩ := ofHunks_terminate_eq_ok hn hfault
  refine ⟨edits, ?_, ?_⟩
  · rw [ofPatch_eq_ofHunks (Patch.parse_write printed hnames hfit hclean), hedits]
  · intro e
    have horder := inOrder_of_apart hapart
    have hpatch := apply_ofHunks_terminate (t := joinLines o.lineEnding r.before) e hn hstop
      (horder.symm ▸ hapart) hedits
    rw [hpatch, horder, Revision.patchText_hunks o.lineEnding hbefore]

/-- A hunk that changes a line, and one that only inserts after a line that neither shows. -/
theorem apply_ofPatch_write_two_hunks :
    ∃ edits, ofPatch { lineEnding := .crlf, verify := true } "a\r\nb\r\nc\r\n".toList
        "--- old\n+++ new\n@@ -1,2 +1,2 @@\n a\n-b\n+é\n@@ -3,0 +4,1 @@\n+d\n".toList = .ok edits ∧
      ∀ e, apply "a\r\nb\r\nc\r\n".toList edits e = .ok "a\r\né\r\nc\r\nd\r\n".toList :=
  apply_ofPatch_write { lineEnding := .crlf, verify := true } .lf
    (some (['o', 'l', 'd'], ['n', 'e', 'w']))
    ⟨[⟨[], [⟨.keep, ['a']⟩, ⟨.delete, ['b']⟩, ⟨.insert, ['é']⟩]⟩,
      ⟨[['c']], [⟨.insert, ['d']⟩]⟩], []⟩
    (by decide) (by decide) (by decide) (by decide) (by decide)

end Edit

end HunkEdits
