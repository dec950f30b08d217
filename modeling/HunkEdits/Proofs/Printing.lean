import HunkEdits.Proofs.HeaderGrammar
import HunkEdits.Proofs.Line

/-!
# What is printed can be read

A patch that is printed from hunks with clean texts, under file headers or without, and with any
terminator, is read into these hunks (`Patch.parse_write`).  Its lines are those it was printed
from, and each of them is read on its own.
-/

namespace HunkEdits

open Text

/-! ### Clean texts -/

namespace Text

variable {s t : Text}

theorem isClean_of_forall (h : ∀ c ∈ t, c ≠ '\n' ∧ c ≠ '\r') : IsClean t := by
  constructor
  · intro hm
    exact (h _ hm).1 rfl
  · intro hl
    exact (h _ (List.mem_of_getLast? hl)).2 rfl

theorem IsClean.append (hs : IsClean s) (ht : IsClean t) : IsClean (s ++ t) := by
  constructor
  · exact List.not_mem_append hs.1 ht.1
  · rw [List.getLast?_append]
    cases hl : t.getLast? with
    | none => simpa using hs.2
    | some c =>
      have := ht.2
      rwa [hl] at this

theorem isClean_ofNat (n : Nat) : IsClean (Decimal.ofNat n) := by
  apply isClean_of_forall
  intro c hc
  have := Decimal.isDigit_of_mem_ofNat hc
  constructor <;> rintro rfl <;> revert this <;> decide

end Text

namespace Header

theorem isClean_writeSpan (s : LineSpan) : IsClean (writeSpan s) :=
  ((isClean_ofNat _).append (by decide)).append (isClean_ofNat _)

theorem isClean_write (h : Header) : IsClean h.write := by
  have hold : IsClean (['@', '@', ' ', '-'] ++ writeSpan h.old) :=
    .append (by decide) (isClean_writeSpan h.old)
  have hnew : IsClean (['@', '@', ' ', '-'] ++ writeSpan h.old ++ [' ', '+'] ++ writeSpan h.new) :=
    (hold.append (by decide)).append (isClean_writeSpan h.new)
  exact (hnew.append (by decide)).append (by decide)

end Header

/-! ### Lines of a hunk -/

/-- Whether the numbers of a hunk's header can be read. -/
def Hunk.Fits (h : Hunk) : Prop :=
  Header.Fits h.old ∧ Header.Fits h.new

instance (h : Hunk) : Decidable h.Fits :=
  inferInstanceAs (Decidable ((_ ∧ _) ∧ (_ ∧ _)))

/-- Whether the texts of a hunk can be told from the terminators of their lines. -/
def Hunk.IsClean (h : Hunk) : Prop :=
  ∀ op ∈ h.ops, Text.IsClean op.text

instance (h : Hunk) : Decidable h.IsClean :=
  inferInstanceAs (Decidable (∀ op ∈ h.ops, _))

namespace Patch

/-- How a line of a patch is written. -/
def BodyLine.text : BodyLine → Text
  | blank => []
  | header h => h.write
  | op o => o.line

/-- Whether a line can be read again once it is written. -/
def BodyLine.Fits : BodyLine → Prop
  | header h => Header.Fits h.old ∧ Header.Fits h.new
  | blank | op _ => True

/-- A hunk as what its lines stand for. -/
def bodyLines (h : Hunk) : List BodyLine :=
  .header h.header :: h.ops.map .op

theorem lines_eq_map_text (h : Hunk) : h.lines = (bodyLines h).map BodyLine.text := by
  simp only [Hunk.lines, bodyLines, List.map_cons, List.map_map]
  rfl

theorem flatMap_lines (hunks : List Hunk) :
    hunks.flatMap Hunk.lines = (hunks.flatMap bodyLines).map BodyLine.text := by
  rw [List.map_flatMap]
  congr 1
  funext h
  exact lines_eq_map_text h

theorem readHeader_write {l : Line} {h : Header} (hl : l.text = h.write)
    (hfit : Header.Fits h.old ∧ Header.Fits h.new) : readHeader l = .ok h := by
  rw [readHeader, hl, Header.parse?_write hfit.1 hfit.2]

theorem classify_text {l : Line} {b : BodyLine} (hl : l.text = b.text) (hfit : b.Fits) :
    classify l = .ok b := by
  cases b with
  | blank =>
    rw [classify, hl]
    rfl
  | header h =>
    have hr := readHeader_write hl hfit
    obtain ⟨r, hw⟩ : ∃ r, h.write = '@' :: r := ⟨_, rfl⟩
    rw [classify, hl, BodyLine.text, hw, hr]
    rfl
  | op o =>
    obtain ⟨kind, t⟩ := o
    rw [classify, hl]
    cases kind <;> rfl

theorem mapM_classify_text {ls : List Line} {bs : List BodyLine}
    (hl : ls.map Line.text = bs.map BodyLine.text) (hfit : ∀ b ∈ bs, b.Fits) :
    ls.mapM classify = .ok bs := by
  induction bs generalizing ls with
  | nil =>
    obtain rfl : ls = [] := by simpa using hl
    rfl
  | cons b bs ih =>
    cases ls with
    | nil => cases hl
    | cons l ls =>
      rw [List.map_cons, List.map_cons, List.cons.injEq] at hl
      obtain ⟨hb, hfit⟩ := List.forall_mem_cons.1 hfit
      rw [List.mapM_cons, classify_text hl.1 hb, ih hl.2 hfit]
      rfl

/-! ### Hunks of lines -/

theorem foldr_add_ops (ops : List Op) (rest : List Op × List Hunk) :
    (ops.map BodyLine.op).foldr BodyLine.add rest = (ops ++ rest.1, rest.2) := by
  induction ops with
  | nil => rfl
  | cons op ops ih =>
    rw [List.map_cons, List.foldr_cons, ih]
    rfl

theorem foldr_add_bodyLines (hunks : List Hunk) :
    (hunks.flatMap bodyLines).foldr BodyLine.add ([], []) = ([], hunks) := by
  induction hunks with
  | nil => rfl
  | cons h hunks ih =>
    rw [List.flatMap_cons, List.foldr_append, ih, bodyLines, List.foldr_cons, foldr_add_ops,
      List.append_nil]
    rfl

theorem fits_of_mem_bodyLines {hunks : List Hunk} (hfit : ∀ h ∈ hunks, h.Fits) :
    ∀ b ∈ hunks.flatMap bodyLines, b.Fits := by
  intro b hb
  obtain ⟨h, hh, hb⟩ := List.mem_flatMap.1 hb
  rcases List.mem_cons.1 hb with rfl | hb
  · exact hfit h hh
  · obtain ⟨op, -, rfl⟩ := List.mem_map.1 hb
    trivial

/-- Lines that are written for hunks are read into them. -/
theorem readHunks_lines {ls : List Line} {hunks : List Hunk}
    (hl : ls.map Line.text = hunks.flatMap Hunk.lines) (hfit : ∀ h ∈ hunks, h.Fits) :
    readHunks ls = .ok hunks := by
  have hbody := fits_of_mem_bodyLines hfit
  have hfold := foldr_add_bodyLines hunks
  rw [flatMap_lines] at hl
  cases hunks with
  | nil =>
    obtain rfl : ls = [] := by simpa using hl
    rfl
  | cons h hunks =>
    cases ls with
    | nil => cases hl
    | cons l ls =>
      rw [List.flatMap_cons, bodyLines, List.cons_append] at hl hbody hfold
      rw [List.map_cons, List.map_cons, List.cons.injEq] at hl
      obtain ⟨hfirst, hbody⟩ := List.forall_mem_cons.1 hbody
      have hr := readHeader_write hl.1 hfirst
      have hm := mapM_classify_text hl.2 hbody
      rw [List.foldr_cons] at hfold
      rw [readHunks, hr, hm]
      show Except.ok (hunksOf h.header _) = _
      rw [hunksOf, hfold]

/-! ### The lines that take part -/

theorem map_text_numberedLines (patch : Text) :
    (numberedLines patch).map Line.text = lines patch := by
  rw [numberedLines, List.map_map]
  exact List.zipIdx_map_fst 1 (lines patch)

theorem head?_of_mem_lines {hunks : List Hunk} {l : Text} (hl : l ∈ hunks.flatMap Hunk.lines) :
    l.head? = some '@' ∨ ∃ kind : OpKind, l.head? = some kind.mark := by
  obtain ⟨h, -, hl⟩ := List.mem_flatMap.1 hl
  rcases List.mem_cons.1 hl with rfl | hl
  · exact .inl rfl
  · obtain ⟨op, -, rfl⟩ := List.mem_map.1 hl
    exact .inr ⟨op.kind, rfl⟩

theorem not_remark_of_mem_lines {hunks : List Hunk} {l : Text} (hl : l ∈ hunks.flatMap Hunk.lines) :
    startsWith remarkMark l = false := by
  rw [Bool.eq_false_iff]
  intro h
  obtain ⟨rest, rfl⟩ := startsWith_iff.1 h
  have hmark : (remarkMark ++ rest).head? = some '\\' := rfl
  rcases head?_of_mem_lines hl with h | ⟨kind, h⟩ <;> rw [hmark] at h
  · exact absurd h (by decide)
  · cases kind <;> exact absurd h (by decide)

theorem filter_not_remark {hunks : List Hunk} {ls : List Line}
    (hl : ls.map Line.text = hunks.flatMap Hunk.lines) :
    ls.filter (fun l => !startsWith remarkMark l.text) = ls := by
  rw [List.filter_eq_self]
  intro l hm
  have hmem : l.text ∈ hunks.flatMap Hunk.lines := hl ▸ List.mem_map_of_mem hm
  rw [not_remark_of_mem_lines hmem]
  rfl

/-- A file header is preamble and opens no hunk. -/
theorem of_mem_fileHeader {names : Text × Text} {l : Line} (hl : l.text ∈ fileHeader names) :
    opensHunk l = false ∧ isPreamble l = true := by
  simp only [fileHeader, List.mem_cons, List.not_mem_nil, or_false] at hl
  rcases hl with hl | hl <;> rw [opensHunk, isPreamble, hl]
  · exact ⟨rfl, by simp [startsWith, dropLead?, oldFileMark]⟩
  · exact ⟨rfl, by simp [startsWith, dropLead?, newFileMark]⟩

theorem hunkLines_of_lines {patch : Text} {hunks : List Hunk}
    (hmark : startsWith oldFileMark patch = false) (hl : lines patch = hunks.flatMap Hunk.lines) :
    hunkLines patch = .ok (numberedLines patch) := by
  have hf := filter_not_remark ((map_text_numberedLines patch).trans hl)
  simp only [hunkLines, hmark, hf]
  rfl

theorem hunkLines_of_fileHeader {patch : Text} {names : Text × Text} {hunks : List Hunk}
    (hmark : startsWith oldFileMark patch = true)
    (hl : lines patch = fileHeader names ++ hunks.flatMap Hunk.lines) :
    ∃ ls, hunkLines patch = .ok ls ∧ ls.map Line.text = hunks.flatMap Hunk.lines := by
  obtain ⟨front, ls, hall, hfront, hls⟩ :=
    List.map_eq_append_iff.1 ((map_text_numberedLines patch).trans hl)
  have hpre : ∀ l ∈ front, opensHunk l = false ∧ isPreamble l = true := by
    intro l hm
    exact of_mem_fileHeader (hfront ▸ List.mem_map_of_mem hm)
  refine ⟨ls, ?_, hls⟩
  rw [hunkLines, hall, if_pos hmark]
  cases hunks with
  | nil =>
    obtain rfl : ls = [] := by simpa using hls
    have hopen : front.any opensHunk = false := by
      rw [List.any_eq_false]
      intro l hm
      simp [(hpre l hm).1]
    have hstray : front.find? (fun l => !isPreamble l) = none := by
      rw [List.find?_eq_none]
      intro l hm
      simp [(hpre l hm).2]
    simp only [List.append_nil, hopen, hstray]
    rfl
  | cons h hunks =>
    cases ls with
    | nil => cases hls
    | cons l ls =>
      have htext : l.text = h.header.write := (List.cons.inj hls).1
      have hopens : opensHunk l = true := by
        rw [opensHunk, htext]
        rfl
      have hopen : (front ++ l :: ls).any opensHunk = true :=
        List.any_eq_true.2 ⟨l, by simp, hopens⟩
      -- the file header is passed over up to the first line of a hunk
      have hdrop : (front ++ l :: ls).dropWhile (fun l => !opensHunk l) = l :: ls := by
        rw [List.dropWhile_append_of_pos fun l hm => by simp [(hpre l hm).1],
          List.dropWhile_cons_of_neg (by simp [hopens])]
      rw [if_pos hopen, hdrop, filter_not_remark hls]

/-! ### What is printed can be read -/

theorem isClean_of_mem_lines {hunks : List Hunk} (hclean : ∀ h ∈ hunks, h.IsClean) :
    ∀ l ∈ hunks.flatMap Hunk.lines, IsClean l := by
  intro l hl
  obtain ⟨h, hh, hl⟩ := List.mem_flatMap.1 hl
  rcases List.mem_cons.1 hl with rfl | hl
  · exact h.header.isClean_write
  · obtain ⟨op, hop, rfl⟩ := List.mem_map.1 hl
    have hmark : IsClean [op.kind.mark] := by cases op.kind <;> decide
    exact hmark.append (hclean h hh op hop)

theorem isClean_of_mem_fileHeader {names : Text × Text} (h₁ : IsClean names.1)
    (h₂ : IsClean names.2) : ∀ l ∈ fileHeader names, IsClean l := by
  intro l hl
  simp only [fileHeader, List.mem_cons, List.not_mem_nil, or_false] at hl
  have hmark : IsClean (oldFileMark ++ [' ']) ∧ IsClean (newFileMark ++ [' ']) := by decide
  rcases hl with rfl | rfl
  · exact hmark.1.append h₁
  · exact hmark.2.append h₂

/-- **What is printed can be read.**  A patch that is printed from hunks with clean texts is read
into these hunks. -/
theorem parse_write (ending : LineEnding) {names : Option (Text × Text)} {hunks : List Hunk}
    (hnames : ∀ n ∈ names, IsClean n.1 ∧ IsClean n.2) (hfit : ∀ h ∈ hunks, h.Fits)
    (hclean : ∀ h ∈ hunks, h.IsClean) : parse (write ending names hunks) = .ok hunks := by
  have hlines := isClean_of_mem_lines hclean
  obtain ⟨ls, hls, htext⟩ : ∃ ls, hunkLines (write ending names hunks) = .ok ls ∧
      ls.map Line.text = hunks.flatMap Hunk.lines := by
    cases names with
    | none =>
      have hl : lines (write ending none hunks) = hunks.flatMap Hunk.lines :=
        lines_joinLines ending hlines
      refine ⟨_, hunkLines_of_lines ?_ hl, (map_text_numberedLines _).trans hl⟩
      cases hunks <;> rfl
    | some names =>
      obtain ⟨h₁, h₂⟩ := hnames names rfl
      have hl : lines (write ending (some names) hunks) =
          fileHeader names ++ hunks.flatMap Hunk.lines :=
        lines_joinLines ending fun l hl => (List.mem_append.1 hl).elim
          (isClean_of_mem_fileHeader h₁ h₂ l) (hlines l)
      exact hunkLines_of_fileHeader rfl hl
  rw [parse, hls]
  exact readHunks_lines htext hfit

end Patch

end HunkEdits
