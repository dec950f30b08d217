import HunkEdits.Proofs.LastLine

/-!
# Hunks one by one

Hunks that are apart from each other can be made one at a time, from the last one to the first, each
of them converted and verified against the text that the later ones have left
(`Edit.foldrM_patchHunk`).  The text before a hunk is still that of the document then: its lines are
the same, and so are their numbers.

The document has to end in a line feed and the hunks have to lie inside of it.  Behind a last line
that is open, an inserted line would change what that line says.
-/

namespace HunkEdits

namespace Hunk

variable {ending : LineEnding} {h : Hunk} {hunks : List Hunk} {t : Text} {raw : List Text}
  {done m : Nat}

/-- Hunks that are apart from each other end where the last one does, or before. -/
theorem stop_le_of_getLast? (hapart : Apart hunks) {last : Hunk}
    (hlast : hunks.getLast? = some last) (hh : h ∈ hunks) : h.stop ≤ last.stop := by
  obtain ⟨before, rfl⟩ := List.getLast?_eq_some_iff.1 hlast
  rcases List.mem_append.1 hh with hh | hh
  · have hle := (List.pairwise_append.1 hapart).2.2 h hh last (List.mem_singleton_self last)
    unfold stop at hle ⊢
    omega
  · rw [List.mem_singleton.1 hh]

/-- Lines before all hunks stay. -/
theorem patchFrom_eq_append (ending : LineEnding) (raw : List Text) (hdone : done ≤ m)
    (hm : ∀ h ∈ hunks, m ≤ h.old.start) : patchFrom ending done hunks raw =
      raw.take (m - done) ++ patchFrom ending m hunks (raw.drop (m - done)) := by
  cases hunks with
  | nil => exact (List.take_append_drop _ _).symm
  | cons h hunks =>
    have hgap : h.old.start - done = (m - done) + (h.old.start - m) := by
      have := hm h (List.mem_cons_self ..)
      omega
    rw [patchFrom_cons, patchFrom_cons, hgap, List.take_add, List.drop_drop]
    simp only [List.append_assoc]

/-- A hunk is carried out after those behind it as it is before them. -/
theorem patchFrom_patchFrom (ending : LineEnding) (hstop : ∀ k ∈ hunks, h.stop ≤ k.old.start)
    (hin : h.stop ≤ raw.length) :
    patchFrom ending 0 [h] (patchFrom ending 0 hunks raw) =
      patchFrom ending 0 (h :: hunks) raw := by
  have hstart : h.old.start ≤ h.stop := Nat.le_add_right _ _
  -- the lines of the hunk, between those before it and those behind it
  obtain ⟨before, lines, behind, rfl, hbefore, hlines⟩ : ∃ before lines behind,
      raw = before ++ (lines ++ behind) ∧ before.length = h.old.start ∧
        lines.length = h.consumed := by
    refine ⟨raw.take h.old.start, (raw.drop h.old.start).take h.consumed,
      (raw.drop h.old.start).drop h.consumed, ?_, ?_, ?_⟩
    · rw [List.take_append_drop, List.take_append_drop]
    · rw [List.length_take]
      omega
    · rw [List.length_take, List.length_drop]
      unfold stop at hin
      omega
  have hlen : (before ++ lines).length = h.stop := by
    rw [List.length_append, hbefore, hlines]
    rfl
  have hlater : patchFrom ending 0 hunks (before ++ (lines ++ behind)) =
      before ++ (lines ++ patchFrom ending h.stop hunks behind) := by
    rw [patchFrom_eq_append ending _ (Nat.zero_le _) hstop, Nat.sub_zero, ← List.append_assoc,
      ← hlen, List.take_left, List.drop_left, hlen, List.append_assoc]
  have hreach (more : List Text) : Op.patchLines ending h.ops (lines ++ more) =
      ((Op.patchLines ending h.ops lines).1, more) := by
    rw [Op.patchLines_append_right (Nat.le_of_eq hlines.symm), Op.snd_patchLines, ← consumed,
      ← hlines, List.drop_length, List.nil_append]
  rw [hlater, patchFrom_cons, patchFrom_cons, Nat.sub_zero, ← hbefore, List.take_left,
    List.take_left, List.drop_left, List.drop_left, hreach, hreach]
  rfl

theorem rawLines_patchText (ending : LineEnding) (hn : ∀ h ∈ hunks, ∀ op ∈ h.ops, '\n' ∉ op.text)
    (ht : ∀ r ∈ Text.rawLines t, Text.IsLine r) :
    Text.rawLines (patchText ending hunks t) = patchFrom ending 0 hunks (Text.rawLines t) := by
  rw [patchText, patchFrom_eq_pieces]
  exact Text.rawLines_flatten (Op.isLine_pieces (newline_notMem_script 0 hn) ht)

end Hunk

/-- Lines before all hunks say what they said. -/
theorem Document.line?_patchText {ending : LineEnding} {hunks : List Hunk} {t : Text} {m k : Nat}
    (hn : ∀ h ∈ hunks, ∀ op ∈ h.ops, '\n' ∉ op.text) (ht : ∀ r ∈ Text.rawLines t, Text.IsLine r)
    (hm : ∀ h ∈ hunks, m ≤ h.old.start) (hin : m ≤ (Text.rawLines t).length) (hk : k < m) :
    (ofText (Hunk.patchText ending hunks t)).line? k = (ofText t).line? k := by
  have hlen : k < ((Text.rawLines t).take m).length := by
    rw [List.length_take]
    omega
  rw [line?_ofText, line?_ofText, Hunk.rawLines_patchText ending hn ht,
    Hunk.patchFrom_eq_append ending _ (Nat.zero_le m) hm, Nat.sub_zero,
    List.getElem?_append_left hlen, List.getElem?_take_of_lt hk]

namespace Edit

variable {o : Options} {e : Encoding} {h : Hunk} {hunks : List Hunk} {t : Text} {edits : List Edit}

/-- Converts one hunk and makes its edits. -/
def patchHunk (o : Options) (e : Encoding) (h : Hunk) (t : Text) : Except PatchError Text := do
  apply t (← ofHunks o (Document.ofText t) [h]) e

/-- A hunk that is not at fault is carried out. -/
theorem patchHunk_terminate (e : Encoding) (hn : ∀ op ∈ h.ops, '\n' ∉ op.text)
    (hs : h.stop < wordBound) (hf : h.firstFault? o (.ofText t) = none) :
    patchHunk o e (h.terminate o.lineEnding) t = .ok (Hunk.patchText o.lineEnding [h] t) := by
  have hn' : ∀ k ∈ [h], ∀ op ∈ k.ops, '\n' ∉ op.text := List.forall_mem_singleton.2 hn
  obtain ⟨edits, hconv⟩ := ofHunks_terminate_eq_ok hn' (List.forall_mem_singleton.2 hf)
  have happly := apply_ofHunks_of_apart (t := t) e hn' (List.forall_mem_singleton.2 hs)
    (List.pairwise_singleton _ _) hconv
  exact bind_eq_ok_iff.2 ⟨edits, hconv, happly⟩

/-- The step of making hunks one by one: those behind are made already. -/
theorem patchHunk_patchText (e : Encoding) (hn : ∀ k ∈ h :: hunks, ∀ op ∈ k.ops, '\n' ∉ op.text)
    (ht : ∀ r ∈ Text.rawLines t, Text.IsLine r) (hstop : ∀ k ∈ hunks, h.stop ≤ k.old.start)
    (hin : h.stop ≤ (Text.rawLines t).length) (hword : (Text.rawLines t).length < wordBound)
    (hf : h.firstFault? o (.ofText t) = none) :
    patchHunk o e (h.terminate o.lineEnding) (Hunk.patchText o.lineEnding hunks t) =
      .ok (Hunk.patchText o.lineEnding (h :: hunks) t) := by
  obtain ⟨hh, hn⟩ := List.forall_mem_cons.1 hn
  have hsame : h.firstFault? o (.ofText (Hunk.patchText o.lineEnding hunks t)) = none := by
    rw [← hf]
    exact Hunk.firstFault?_congr rfl fun _ k hk => Document.line?_patchText hn ht hstop hin hk
  rw [patchHunk_terminate e hh (Nat.lt_of_le_of_lt hin hword) hsame, Hunk.patchText,
    Hunk.rawLines_patchText _ hn ht, Hunk.patchFrom_patchFrom _ hstop hin, Hunk.patchText]

theorem foldrM_patchHunk_eq (e : Encoding) (hn : ∀ h ∈ hunks, ∀ op ∈ h.ops, '\n' ∉ op.text)
    (ht : ∀ r ∈ Text.rawLines t, Text.IsLine r) (hapart : Hunk.Apart hunks)
    (hin : ∀ h ∈ hunks, h.stop ≤ (Text.rawLines t).length)
    (hword : (Text.rawLines t).length < wordBound)
    (hf : ∀ h ∈ hunks, h.firstFault? o (.ofText t) = none) :
    (hunks.map (Hunk.terminate o.lineEnding)).foldrM (patchHunk o e) t =
      .ok (Hunk.patchText o.lineEnding hunks t) := by
  induction hunks with
  | nil =>
    rw [Hunk.patchText, Hunk.patchFrom, Text.flatten_rawLines]
    rfl
  | cons h hunks ih =>
    obtain ⟨hstop, hapart⟩ := List.pairwise_cons.1 hapart
    obtain ⟨hlast, hin⟩ := List.forall_mem_cons.1 hin
    obtain ⟨hfault, hf⟩ := List.forall_mem_cons.1 hf
    have hbehind := ih (List.forall_mem_cons.1 hn).2 hapart hin hf
    rw [List.map_cons, List.foldrM_cons, hbehind]
    exact patchHunk_patchText e hn ht hstop hlast hword hfault

/-- **Hunks may be made one by one, from the last to the first.**  Let hunks that are apart from
each other, inside a text that is empty or ends in a line feed and whose lines a word can count,
have edits.  Then each of them can be converted and applied, in the text that the hunks behind it
have left, and in the end the text is the one to which all edits are applied at once. -/
theorem foldrM_patchHunk (o : Options) (e : Encoding)
    (ht : t = [] ∨ t.getLast? = some '\n') (hword : (Text.lines t).length < wordBound)
    (hn : ∀ h ∈ hunks, ∀ op ∈ h.ops, '\n' ∉ op.text)
    (hapart : hunks.IsChain fun h k => h.stop ≤ k.old.start)
    (hin : ∀ h ∈ hunks.getLast?, h.stop ≤ (Text.lines t).length)
    (hconv : ofHunks o (.ofText t) (hunks.map (Hunk.terminate o.lineEnding)) = .ok edits) :
    ∃ result, apply t edits e = .ok result ∧
      (hunks.map (Hunk.terminate o.lineEnding)).foldrM (patchHunk o e) t = .ok result := by
  have hapart := Hunk.apart_of_isChain hapart
  rw [Text.lines, List.length_map] at hword
  have hstop : ∀ h ∈ hunks, h.stop ≤ (Text.rawLines t).length := by
    intro h hh
    cases hlast : hunks.getLast? with
    | none =>
      rw [List.getLast?_eq_none_iff.1 hlast] at hh
      cases hh
    | some last =>
      have hle := hin last hlast
      rw [Text.lines, List.length_map] at hle
      exact Nat.le_trans (Hunk.stop_le_of_getLast? hapart hlast hh) hle
  have hs : ∀ h ∈ hunks, h.stop < wordBound := by
    intro h hh
    exact Nat.lt_of_le_of_lt (hstop h hh) hword
  refine ⟨_, apply_ofHunks_of_apart e hn hs hapart hconv, ?_⟩
  exact foldrM_patchHunk_eq e hn (Text.forall_isLine_rawLines ht) hapart hstop hword
    (firstFault?_eq_none_of_ofHunks hn hconv)

/-- A hunk, one right behind it, and a line that is inserted at the end of the text. -/
theorem foldrM_patchHunk_adjacent :
    ∃ hunks edits,
      hunks = [⟨⟨0, 1⟩, ⟨0, 2⟩, [⟨.delete, ['a']⟩, ⟨.insert, ['x']⟩, ⟨.insert, ['y']⟩]⟩,
        ⟨⟨1, 1⟩, ⟨2, 0⟩, [⟨.delete, ['b']⟩]⟩, ⟨⟨3, 0⟩, ⟨3, 1⟩, [⟨.insert, ['z']⟩]⟩] ∧
      ofHunks { verify := true } (.ofText "a\nb\nc\n".toList)
        (hunks.map (Hunk.terminate .native)) = .ok edits ∧
      apply "a\nb\nc\n".toList edits .utf16 = .ok "x\ny\nc\nz\n".toList ∧
      (hunks.map (Hunk.terminate .native)).foldrM (patchHunk { verify := true } .utf16)
        "a\nb\nc\n".toList = .ok "x\ny\nc\nz\n".toList := by
  obtain ⟨hunks, hhunks⟩ : ∃ hunks : List Hunk, hunks =
      [⟨⟨0, 1⟩, ⟨0, 2⟩, [⟨.delete, ['a']⟩, ⟨.insert, ['x']⟩, ⟨.insert, ['y']⟩]⟩,
        ⟨⟨1, 1⟩, ⟨2, 0⟩, [⟨.delete, ['b']⟩]⟩, ⟨⟨3, 0⟩, ⟨3, 1⟩, [⟨.insert, ['z']⟩]⟩] := ⟨_, rfl⟩
  have hconv : ofHunks { verify := true } (.ofText "a\nb\nc\n".toList)
        (hunks.map (Hunk.terminate .native)) =
      .ok [.replace (.ofLine 0) (.ofLine 1) ['x', '\n', 'y', '\n'],
        .delete (.ofLine 1) (.ofLine 2), .insert (.ofLine 3) ['z', '\n']] := by
    rw [hhunks, ofHunks, inOrder_terminate, inOrder_of_pairwise (by decide)]
    rfl
  obtain ⟨result, happly, hfold⟩ := foldrM_patchHunk { verify := true } .utf16 (.inr (by decide))
    (by decide) (by rw [hhunks]; decide) (by rw [hhunks]; decide) (by rw [hhunks]; decide) hconv
  obtain rfl : "x\ny\nc\nz\n".toList = result := Except.ok.inj happly
  exact ⟨hunks, _, hhunks, hconv, happly, hfold⟩

end Edit

end HunkEdits
