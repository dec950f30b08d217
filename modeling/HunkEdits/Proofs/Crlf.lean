import HunkEdits.Proofs.Outcome
import HunkEdits.Text.Crlf

/-!
# Carriage returns before line feeds

A text in which each line feed is written as a carriage return and a line feed has its line ends at
the same places (`Text.rawLines_crlf`).  If no carriage return stood before a line feed, its lines
also say the same, in both senses of what a line says (`Text.lineContent_crlf`,
`Text.lineText_crlf`).  So a patch is read in the same way (`Patch.parse_crlf`), and neither the
line ends of the patch nor those of the document change the edits (`Edit.ofPatch_crlf`).
-/

namespace HunkEdits

namespace Text

variable {t l raw : Text}

/-! ### Line feeds -/

theorem crlf_of_newline_notMem (h : '\n' ∉ t) : crlf t = t := by
  induction t with
  | nil => rfl
  | cons c t ih =>
    obtain ⟨hc, ht⟩ := List.ne_and_not_mem_of_not_mem_cons h
    rw [crlf_cons, if_neg (Ne.symm hc), ih ht]
    rfl

theorem crlf_line (h : '\n' ∉ l) : crlf (l ++ ['\n']) = l ++ ['\r', '\n'] := by
  rw [crlf_append, crlf_of_newline_notMem h]
  rfl

/-- The text is cut at the same places. -/
theorem rawLines_crlf (t : Text) : rawLines (crlf t) = (rawLines t).map crlf := by
  induction t with
  | nil => rfl
  | cons c t ih =>
    by_cases hc : c = '\n'
    · subst hc
      have hcut : crlf ('\n' :: t) = '\r' :: '\n' :: crlf t := rfl
      rw [hcut, rawLines_cons, rawLines_newline_cons, ih, rawLines_newline_cons]
      rfl
    · rw [crlf_cons, if_neg hc, List.singleton_append, rawLines_cons, rawLines_cons, ih]
      cases rawLines t <;> simp [consRaw, crlf_cons, hc]

/-! ### Texts without a carriage return before a line feed -/

theorem hasCrlf_iff : hasCrlf t = true ↔ ['\r', '\n'] <:+: t := by
  induction t with
  | nil => simp [hasCrlf]
  | cons c t ih =>
    rw [List.infix_cons_iff, ← ih]
    cases t with
    | nil => simp [hasCrlf]
    | cons d t =>
      simp only [hasCrlf, Bool.or_eq_true, Bool.and_eq_true, beq_iff_eq, List.cons_prefix_cons,
        List.nil_prefix, and_true]
      rw [@eq_comm _ c, @eq_comm _ d]

/-- In a text without a carriage return before a line feed, giving a raw line one changes the
terminator of a clean line, or nothing. -/
theorem crlf_of_mem_rawLines (ht : hasCrlf t = false) (h : raw ∈ rawLines t) :
    (∃ l, IsClean l ∧ raw = l ++ LineEnding.lf.text ∧ crlf raw = l ++ LineEnding.crlf.text) ∨
      crlf raw = raw := by
  rcases isLine_or_of_mem_rawLines h with ⟨l, rfl, hl⟩ | ⟨-, hn⟩
  · refine .inl ⟨l, ⟨hl, ?_⟩, rfl, crlf_line hl⟩
    intro hlast
    obtain ⟨m, rfl⟩ := List.getLast?_eq_some_iff.1 hlast
    have hraw : ['\r', '\n'] <:+: m ++ ['\r'] ++ ['\n'] := ⟨m, [], by simp⟩
    have hmem : m ++ ['\r'] ++ ['\n'] <:+: (rawLines t).flatten := List.infix_of_mem_flatten h
    rw [flatten_rawLines] at hmem
    rw [hasCrlf_iff.2 (hraw.trans hmem)] at ht
    cases ht
  · exact .inr (crlf_of_newline_notMem hn)

theorem lineText_crlf (ht : hasCrlf t = false) (h : raw ∈ rawLines t) :
    lineText (crlf raw) = lineText raw := by
  rcases crlf_of_mem_rawLines ht h with ⟨l, hl, hraw, hcrlf⟩ | hsame
  · rw [hcrlf, hraw, hl.lineText_append, hl.lineText_append]
  · rw [hsame]

theorem lineContent_crlf (ht : hasCrlf t = false) (h : raw ∈ rawLines t) :
    lineContent (crlf raw) = lineContent raw := by
  rcases crlf_of_mem_rawLines ht h with ⟨l, hl, hraw, hcrlf⟩ | hsame
  · rw [hcrlf, hraw, hl.lineContent_append, hl.lineContent_append]
  · rw [hsame]

theorem lines_crlf (ht : hasCrlf t = false) : lines (crlf t) = lines t := by
  rw [lines, lines, rawLines_crlf, List.map_map]
  exact List.map_congr_left fun raw hraw => lineContent_crlf ht hraw

/-! ### How a text starts -/

theorem dropLead?_crlf {lead : Text} (h : ∀ c ∈ lead, c ≠ '\r' ∧ c ≠ '\n') (t : Text) :
    dropLead? lead (crlf t) = (dropLead? lead t).map crlf := by
  induction lead generalizing t with
  | nil => rfl
  | cons a lead ih =>
    obtain ⟨⟨hr, hn⟩, h⟩ := List.forall_mem_cons.1 h
    cases t with
    | nil => rfl
    | cons c t =>
      by_cases hc : c = '\n'
      · subst hc
        have hcut : crlf ('\n' :: t) = '\r' :: '\n' :: crlf t := rfl
        rw [hcut, dropLead?, if_neg hr, dropLead?, if_neg hn]
        rfl
      · rw [crlf_cons, if_neg hc, List.singleton_append, dropLead?, dropLead?, ih h t]
        split <;> rfl

theorem startsWith_crlf {lead : Text} (h : ∀ c ∈ lead, c ≠ '\r' ∧ c ≠ '\n') (t : Text) :
    startsWith lead (crlf t) = startsWith lead t := by
  rw [startsWith, startsWith, dropLead?_crlf h, Option.isSome_map]

end Text

theorem Document.line?_crlf {t : Text} (ht : Text.hasCrlf t = false) (k : Nat) :
    (ofText (Text.crlf t)).line? k = (ofText t).line? k := by
  rw [line?_ofText, line?_ofText, Text.rawLines_crlf, List.getElem?_map, Option.map_map]
  cases hraw : (Text.rawLines t)[k]? with
  | none => rfl
  | some raw => exact congrArg some (Text.lineText_crlf ht (List.mem_of_getElem? hraw))

namespace Patch

variable {patch : Text}

theorem numberedLines_crlf (h : Text.hasCrlf patch = false) :
    numberedLines (Text.crlf patch) = numberedLines patch := by
  rw [numberedLines, numberedLines, Text.lines_crlf h]

theorem parse_crlf (h : Text.hasCrlf patch = false) : parse (Text.crlf patch) = parse patch := by
  have hmark : Text.startsWith oldFileMark (Text.crlf patch) = Text.startsWith oldFileMark patch :=
    Text.startsWith_crlf (by simp [oldFileMark]) patch
  have hlines : hunkLines (Text.crlf patch) = hunkLines patch := by
    rw [hunkLines, hunkLines, numberedLines_crlf h, hmark]
  rw [parse, parse, hlines]

end Patch

namespace Edit

variable {o : Options} {base base' : Document}

/-- Edits depend on what the lines of the base text say, and on nothing else of it. -/
theorem ofHunks_congr (h : ∀ k, base.line? k = base'.line? k) (hunks : List Hunk) :
    ofHunks o base hunks = ofHunks o base' hunks := by
  have hcheck : checkContext o base = checkContext o base' := by
    funext p t
    simp only [checkContext, h]
  have hstep : step o base = step o base' := by
    funext s op
    simp only [step, hcheck]
  have hhunk : ofHunk o base = ofHunk o base' := by
    funext h
    rw [ofHunk, ofHunk, hstep]
  rw [ofHunks, ofHunks, hhunk]

/-- **Line ends do not change edits.**  A document and a patch without carriage returns before line
feeds may be given them, one of them or both: the patch is read as before, and the outcome of the
conversion is the same, errors included. -/
theorem ofPatch_crlf (o : Options) {text patch : Text} (ht : Text.hasCrlf text = false)
    (hp : Text.hasCrlf patch = false) :
    Patch.parse (Text.crlf patch) = Patch.parse patch ∧
      ofPatch o (Text.crlf text) patch = ofPatch o text patch ∧
      ofPatch o text (Text.crlf patch) = ofPatch o text patch ∧
      ofPatch o (Text.crlf text) (Text.crlf patch) = ofPatch o text patch := by
  have hparse := Patch.parse_crlf hp
  have htext : ∀ p, ofPatch o (Text.crlf text) p = ofPatch o text p := by
    intro p
    simp only [ofPatch, ofHunks_congr (Document.line?_crlf ht)]
  have hpatch : ofPatch o text (Text.crlf patch) = ofPatch o text patch := by
    rw [ofPatch, ofPatch, hparse]
  exact ⟨hparse, htext patch, hpatch, (htext _).trans hpatch⟩

/-- A lone carriage return in a line, one at the end of the document, and verification. -/
theorem ofPatch_crlf_lone :
    Text.hasCrlf "a\rb\nc\r".toList = false ∧
      Text.hasCrlf "@@ -1,2 +1,2 @@\n-a\rb\n+x\n c".toList = false ∧
      ofPatch { verify := true } "a\rb\r\nc\r".toList
          "@@ -1,2 +1,2 @@\r\n-a\rb\r\n+x\r\n c".toList =
        .ok [.replace (.ofLine 0) (.ofLine 1) ['x', '\n']] := by
  have ht : Text.hasCrlf "a\rb\nc\r".toList = false := by decide
  have hp : Text.hasCrlf "@@ -1,2 +1,2 @@\n-a\rb\n+x\n c".toList = false := by decide
  have hparse : Patch.parse "@@ -1,2 +1,2 @@\n-a\rb\n+x\n c".toList =
      .ok [⟨⟨0, 2⟩, ⟨0, 2⟩, [⟨.delete, ['a', '\r', 'b']⟩, ⟨.insert, ['x']⟩,
        ⟨.keep, ['c']⟩]⟩] := by decide
  refine ⟨ht, hp, (ofPatch_crlf { verify := true } ht hp).2.2.2.trans ?_⟩
  rw [ofPatch_eq_ofHunks hparse, ofHunks, inOrder_terminate, inOrder_of_pairwise (by decide)]
  rfl

end Edit

end HunkEdits
