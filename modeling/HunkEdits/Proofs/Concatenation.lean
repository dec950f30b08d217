import HunkEdits.Proofs.Grammar
import HunkEdits.Proofs.Offset

/-!
# Patches put together

A text that begins with a hunk can be put behind any patch of whole lines, file headers or remarks
alone included: the hunks of the one come before those of the other (`Patch.parse_append`).  An
error of the text stays the same error, but for its line, which is counted from the start of the
whole (`PatchError.moveLine`).

The file headers of the first patch are where this might fail, since they are skipped only if a
hunk follows.  But whether one does makes no difference to the lines of hunks that the first patch
has itself (`Patch.hunkArea_append`).
-/

namespace HunkEdits

/-! ### Errors further down -/

/-- The error with the line of the patch that it names moved down. -/
def PatchError.moveLine (n : Nat) : PatchError → PatchError
  | expectedHeader line found => .expectedHeader (line + n) found
  | unknownMode line mode found => .unknownMode (line + n) mode found
  | err => err

namespace Text

variable {p q : Text}

theorem lines_append (hp : p = [] ∨ p.getLast? = some '\n') (q : Text) :
    lines (p ++ q) = lines p ++ lines q := by
  rw [lines, rawLines_append hp, List.map_append]
  rfl

/-- How whole lines start does not depend on what follows them. -/
theorem startsWith_append {lead : Text} (hlead : '\n' ∉ lead) (hp : p.getLast? = some '\n')
    (q : Text) : startsWith lead (p ++ q) = startsWith lead p := by
  rw [Bool.eq_iff_iff, startsWith_iff, startsWith_iff]
  constructor
  · rintro ⟨rest, h⟩
    rcases List.append_eq_append_iff.1 h with ⟨a, rfl, -⟩ | ⟨a, rfl, -⟩
    · exact absurd (List.mem_append_left _ (List.mem_of_getLast? hp)) hlead
    · exact ⟨a, rfl⟩
  · rintro ⟨rest, rfl⟩
    exact ⟨rest ++ q, List.append_assoc ..⟩

section

variable {lead raw : Text} (hlead : '\n' ∉ lead)
include hlead

theorem exists_rawLines_append (hne : lead ≠ []) (t : Text) :
    ∃ raw raws, rawLines (lead ++ t) = (lead ++ raw) :: raws := by
  induction lead with
  | nil => exact absurd rfl hne
  | cons c lead ih =>
    obtain ⟨hc, hlead⟩ := List.ne_and_not_mem_of_not_mem_cons hlead
    rw [List.cons_append, rawLines_cons]
    cases lead with
    | nil =>
      rw [List.nil_append]
      cases rawLines t with
      | nil => exact ⟨[], [], rfl⟩
      | cons l ls => exact ⟨l, ls, by rw [consRaw, if_neg (Ne.symm hc)]; rfl⟩
    | cons d lead =>
      obtain ⟨raw, raws, hraw⟩ := ih hlead (List.cons_ne_nil _ _)
      rw [hraw]
      exact ⟨raw, raws, by rw [consRaw, if_neg (Ne.symm hc)]; rfl⟩

/-- What a line says starts as the line does. -/
theorem exists_lineContent_append (hcr : lead.getLast? ≠ some '\r') (raw : Text) :
    ∃ l, lineContent (lead ++ raw) = lead ++ l := by
  rcases List.eq_nil_or_concat raw with rfl | ⟨raw, c, rfl⟩
  · refine ⟨[], ?_⟩
    rw [List.append_nil, lineContent, if_neg fun hlast => hlead (List.mem_of_getLast? hlast)]
  · rw [List.concat_eq_append, ← List.append_assoc, lineContent, List.getLast?_concat,
      List.dropLast_concat]
    split
    · exact dropFinal_append fun _ => hcr
    · exact ⟨raw ++ [c], List.append_assoc ..⟩

end

end Text

namespace Patch

open Text

variable {p q : Text} {hunks : List Hunk} {l : Line} {ls : List Line} {n : Nat}

/-! ### Lines further down -/

/-- A line with its number moved down. -/
def Line.move (n : Nat) (l : Line) : Line :=
  { l with number := l.number + n }

theorem readHeader_move (n : Nat) (l : Line) :
    readHeader (l.move n) = (readHeader l).mapError (PatchError.moveLine n) := by
  rw [readHeader, readHeader, show (l.move n).text = l.text from rfl]
  cases Header.parse? l.text <;> rfl

theorem classify_move (n : Nat) (l : Line) :
    classify (l.move n) = (classify l).mapError (PatchError.moveLine n) := by
  rw [classify, classify, show (l.move n).text = l.text from rfl]
  split
  · rfl
  · rw [readHeader_move]
    cases readHeader l <;> rfl
  · rfl
  · rfl
  · rfl
  · rfl

/-- Hunks are the same further down, and so are errors, but for their lines. -/
theorem readHunks_move (n : Nat) (ls : List Line) :
    readHunks (ls.map (Line.move n)) = (readHunks ls).mapError (PatchError.moveLine n) := by
  cases ls with
  | nil => rfl
  | cons l ls =>
    have hbody : ls.mapM (classify ∘ Line.move n) =
        (ls.mapM classify).mapError (PatchError.moveLine n) := mapM_mapError (classify_move n) ls
    rw [List.map_cons, readHunks, readHunks, List.mapM_map, hbody, readHeader_move]
    cases readHeader l with
    | error err => rfl
    | ok h => cases ls.mapM classify <;> rfl

theorem numberedLines_append (hp : p = [] ∨ p.getLast? = some '\n') (q : Text) :
    numberedLines (p ++ q) =
      numberedLines p ++ (numberedLines q).map (Line.move (lines p).length) := by
  have hmove : (lines q).zipIdx (1 + (lines p).length) =
      ((lines q).zipIdx 1).map (Prod.map id (· + (lines p).length)) := by
    rw [List.map_snd_add_zipIdx_eq_zipIdx, Nat.add_comm]
  rw [numberedLines, lines_append hp, List.zipIdx_append, List.map_append, hmove, List.map_map]
  simp only [numberedLines, List.map_map]
  rfl

/-! ### Hunks behind each other -/

theorem foldr_add_eq (body : List BodyLine) (hunks : List Hunk) :
    body.foldr BodyLine.add ([], hunks) =
      ((body.foldr BodyLine.add ([], [])).1, (body.foldr BodyLine.add ([], [])).2 ++ hunks) := by
  induction body with
  | nil => rfl
  | cons b body ih =>
    rw [List.foldr_cons, ih, List.foldr_cons]
    generalize body.foldr BodyLine.add ([], []) = rest
    cases b <;> rfl

/-- A header ends the hunks before it. -/
theorem hunksOf_append (h h' : Header) (body body' : List BodyLine) :
    hunksOf h (body ++ .header h' :: body') = hunksOf h body ++ hunksOf h' body' := by
  have hrest : (BodyLine.header h' :: body').foldr BodyLine.add ([], []) =
      ([], hunksOf h' body') := rfl
  rw [hunksOf, List.foldr_append, hrest, foldr_add_eq]
  rfl

/-- Lines that begin with a hunk are read in the same way behind others. -/
theorem readHunks_append (h : readHunks ls = .ok hunks) (hl : opensHunk l = true)
    (ls' : List Line) :
    readHunks (ls ++ l :: ls') = (readHunks (l :: ls')).map (hunks ++ ·) := by
  cases ls with
  | nil =>
    obtain rfl : [] = hunks := Except.ok.inj h
    rw [List.nil_append]
    cases readHunks (l :: ls') <;> rfl
  | cons l₀ ls =>
    obtain ⟨h₀, hh₀, h⟩ := bind_eq_ok_iff.1 h
    obtain ⟨body, hbody, h⟩ := bind_eq_ok_iff.1 h
    obtain rfl : hunksOf h₀ body = hunks := Except.ok.inj h
    obtain ⟨t, ht⟩ := startsWith_iff.1 hl
    rw [List.cons_append, readHunks, hh₀, List.mapM_append, hbody, List.mapM_cons,
      classify_at ht, readHunks]
    cases readHeader l with
    | error err => rfl
    | ok h =>
      cases ls'.mapM classify with
      | error err => rfl
      | ok body' => exact congrArg Except.ok (hunksOf_append h₀ h body body')

/-! ### Lines of hunks -/

theorem exists_numberedLines_eq_cons (hq : startsWith hunkMark q = true) :
    ∃ l ls, numberedLines q = l :: ls ∧ opensHunk l = true := by
  obtain ⟨t, rfl⟩ := startsWith_iff.1 hq
  have hmark : '\n' ∉ hunkMark := by decide
  obtain ⟨raw, raws, hraw⟩ := exists_rawLines_append hmark (by decide) t
  obtain ⟨l, hl⟩ := exists_lineContent_append hmark (by decide) raw
  have hfirst : opensHunk ⟨1, hunkMark ++ l⟩ = true := startsWith_iff.2 ⟨l, rfl⟩
  exact ⟨_, _, by rw [numberedLines, lines, hraw, List.map_cons, hl, List.zipIdx_cons,
    List.map_cons], hfirst⟩

theorem hunkArea_of_startsWith (hq : startsWith hunkMark q = true) :
    hunkArea q = (numberedLines q).filter fun l => !startsWith remarkMark l.text := by
  obtain ⟨t, rfl⟩ := startsWith_iff.1 hq
  rfl

theorem exists_hunkArea_eq_cons (hq : startsWith hunkMark q = true) :
    ∃ l ls, hunkArea q = l :: ls ∧ opensHunk l = true := by
  obtain ⟨l, ls, hnumbered, hopen⟩ := exists_numberedLines_eq_cons hq
  obtain ⟨r, hr⟩ := startsWith_iff.1 hopen
  have hremark : startsWith remarkMark l.text = false := by
    rw [hr]
    rfl
  refine ⟨l, ls.filter fun l => !startsWith remarkMark l.text, ?_, hopen⟩
  rw [hunkArea_of_startsWith hq, hnumbered, List.filter_cons_of_pos (by simp [hremark])]

/-- What is put behind a patch is not skipped, and makes nothing more of the patch skipped. -/
theorem hunkArea_append (hp : p = [] ∨ p.getLast? = some '\n') (hq : startsWith hunkMark q = true) :
    hunkArea (p ++ q) = hunkArea p ++ (hunkArea q).map (Line.move (lines p).length) := by
  have hmark : startsWith oldFileMark (p ++ q) = startsWith oldFileMark p := by
    rcases hp with rfl | hp
    · obtain ⟨t, rfl⟩ := startsWith_iff.1 hq
      rfl
    · exact startsWith_append (by decide) hp q
  obtain ⟨l, ls, hnumbered, hopen⟩ := exists_numberedLines_eq_cons hq
  -- the first line of `q` opens a hunk, so that no more than the lines of `p` may be skipped
  have hdrop : ((numberedLines p ++ (numberedLines q).map (Line.move (lines p).length)).dropWhile
      fun l => !opensHunk l) = ((numberedLines p).dropWhile fun l => !opensHunk l) ++
        (numberedLines q).map (Line.move (lines p).length) := by
    have hopen : opensHunk (l.move (lines p).length) = true := hopen
    rw [List.dropWhile_append, hnumbered, List.map_cons,
      List.dropWhile_cons_of_neg (by simp [hopen])]
    split
    · rename_i hempty
      rw [List.isEmpty_iff.1 hempty, List.nil_append]
    · rfl
  rw [hunkArea_of_startsWith hq]
  simp only [hunkArea, hmark, numberedLines_append hp]
  split
  · rw [hdrop, List.filter_append, List.filter_map]
    rfl
  · rw [List.filter_append, List.filter_map]
    rfl

theorem not_isHunkless_append (hp : p = [] ∨ p.getLast? = some '\n')
    (hq : startsWith hunkMark q = true) : ¬ IsHunkless (p ++ q) := by
  rintro ⟨-, hnone⟩
  obtain ⟨l, ls, hnumbered, hopen⟩ := exists_numberedLines_eq_cons hq
  have hclosed := hnone (l.move (lines p).length) (by simp [numberedLines_append hp, hnumbered])
  exact Bool.false_ne_true (hclosed.symm.trans hopen)

theorem readHunks_hunkArea (hparse : parse p = .ok hunks) : readHunks (hunkArea p) = .ok hunks := by
  by_cases hp : IsHunkless p
  · rw [parse, hunkLines_of_isHunkless hp] at hparse
    rw [hunkArea_of_isHunkless hp]
    cases hf : (numberedLines p).findSome? strayFault? with
    | some err =>
      rw [hf] at hparse
      cases hparse
    | none =>
      rw [hf] at hparse
      exact hparse
  · rw [← hparse, parse_eq_readHunks hp]

/-! ### Errors of reading -/

section

variable {err : PatchError}

/-- Whether an error names a line of the patch, and says the same of it further down. -/
def MovesDown (n : Nat) (err : PatchError) : Prop :=
  ∃ line what, err.Blames line what ∧ (err.moveLine n).Blames (line + n) what

theorem movesDown_expectedHeader (n line : Nat) (found : Text) :
    MovesDown n (.expectedHeader line found) :=
  ⟨line, _, PatchError.blames_expectedHeader .., PatchError.blames_expectedHeader ..⟩

theorem movesDown_of_headerFault? (h : headerFault? l = some err) (n : Nat) : MovesDown n err := by
  rw [headerFault?] at h
  split at h
  · cases h
  · rw [← Option.some.inj h]
    exact movesDown_expectedHeader n _ _

theorem movesDown_of_bodyFault? (h : bodyFault? l = some err) (n : Nat) : MovesDown n err := by
  obtain ⟨c, -, h⟩ := Option.bind_eq_some_iff.1 h
  split at h
  · exact movesDown_of_headerFault? h n
  · split at h
    · cases h
    · rw [← Option.some.inj h]
      exact ⟨_, _, PatchError.blames_unknownMode .., PatchError.blames_unknownMode ..⟩

theorem movesDown_of_parse (h : parse q = .error err) (n : Nat) : MovesDown n err := by
  have hf := parse_eq_error_iff.1 h
  unfold firstFault? at hf
  split at hf
  · obtain ⟨l, -, hl⟩ := List.exists_of_findSome?_eq_some hf
    rw [strayFault?] at hl
    split at hl
    · cases hl
    · rw [← Option.some.inj hl]
      exact movesDown_expectedHeader n _ _
  · split at hf
    · cases hf
    · rcases Option.or_eq_some_iff.1 hf with hl | ⟨-, hls⟩
      · exact movesDown_of_headerFault? hl n
      · obtain ⟨l, -, hl⟩ := List.exists_of_findSome?_eq_some hls
        exact movesDown_of_bodyFault? hl n

end

/-! ### Reading what is put together -/

theorem parse_append_eq (hp : p = [] ∨ p.getLast? = some '\n') (hparse : parse p = .ok hunks)
    (hq : startsWith hunkMark q = true) : parse (p ++ q) =
      ((parse q).mapError (PatchError.moveLine (lines p).length)).map (hunks ++ ·) := by
  have hqarea : ¬ IsHunkless q := not_isHunkless_append (.inl rfl) hq
  obtain ⟨l, ls, harea, hopen⟩ := exists_hunkArea_eq_cons hq
  have hopen : opensHunk (l.move (lines p).length) = true := hopen
  calc parse (p ++ q)
      = readHunks (hunkArea p ++ (l :: ls).map (Line.move (lines p).length)) := by
        rw [parse_eq_readHunks (not_isHunkless_append hp hq), hunkArea_append hp hq, harea]
    _ = (readHunks ((l :: ls).map (Line.move (lines p).length))).map (hunks ++ ·) :=
        readHunks_append (readHunks_hunkArea hparse) hopen _
    _ = ((parse q).mapError (PatchError.moveLine (lines p).length)).map (hunks ++ ·) := by
        rw [readHunks_move, parse_eq_readHunks hqarea, harea]

/-- **A hunk begins anew.**  Behind a patch of whole lines that can be read, a text that begins with
a hunk is read as it is alone: its hunks come behind those of the patch, and an error of it is that
of the whole, with the same message, and with its line counted behind the lines of the patch. -/
theorem parse_append (hp : p = [] ∨ p.getLast? = some '\n') (hparse : parse p = .ok hunks)
    (hq : startsWith hunkMark q = true) :
    (∀ more, parse q = .ok more → parse (p ++ q) = .ok (hunks ++ more)) ∧
    ∀ err, parse q = .error err →
      parse (p ++ q) = .error (err.moveLine (lines p).length) ∧
      ∃ line what, err.Blames line what ∧
        (err.moveLine (lines p).length).Blames (line + (lines p).length) what := by
  have hwhole := parse_append_eq hp hparse hq
  refine ⟨?_, ?_⟩
  · intro more hmore
    rw [hwhole, hmore]
    rfl
  · intro err herr
    refine ⟨?_, movesDown_of_parse herr _⟩
    rw [hwhole, herr]
    rfl

/-- A hunk behind a file header that no hunk follows, and behind a patch with a remark at its end;
and an error behind remarks alone. -/
theorem parse_append_three :
    parse ("--- a\n+++ b\n".toList ++ "@@ -1 +1 @@\n-a\n".toList) =
        .ok [⟨⟨0, 1⟩, ⟨0, 1⟩, [⟨.delete, ['a']⟩]⟩] ∧
      parse ("--- a\n@@ -1 +1 @@\n-a\n\\ no\n".toList ++ "@@ -3,0 +4 @@\n+b".toList) =
        .ok [⟨⟨0, 1⟩, ⟨0, 1⟩, [⟨.delete, ['a']⟩]⟩, ⟨⟨3, 0⟩, ⟨3, 1⟩, [⟨.insert, ['b']⟩]⟩] ∧
      parse ("\\ x\n\\ y\n".toList ++ "@@ -1 +1 @@\n*c\n".toList) =
        .error (.unknownMode 4 '*' ['*', 'c']) := by
  have hfile : parse "--- a\n+++ b\n".toList = .ok [] := by decide
  have hhunk : parse "--- a\n@@ -1 +1 @@\n-a\n\\ no\n".toList =
      .ok [⟨⟨0, 1⟩, ⟨0, 1⟩, [⟨.delete, ['a']⟩]⟩] := by decide
  have hremarks : parse "\\ x\n\\ y\n".toList = .ok [] := by decide
  have hfault : parse "@@ -1 +1 @@\n*c\n".toList = .error (.unknownMode 2 '*' ['*', 'c']) := by
    decide
  refine ⟨(parse_append (.inr (by decide)) hfile (by decide)).1 _ (by decide),
    (parse_append (.inr (by decide)) hhunk (by decide)).1 _ (by decide), ?_⟩
  exact ((parse_append (.inr (by decide)) hremarks (by decide)).2 _ hfault).1

end Patch

end HunkEdits
