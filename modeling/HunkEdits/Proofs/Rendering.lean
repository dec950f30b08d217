import HunkEdits.Proofs.Grammar
import HunkEdits.Proofs.Offset

/-!
# Renderings of hunks

Hunks can be written in many ways: under a file header or without, with short or full lengths in
their headers, with section texts, with remarks and empty lines between their lines, and with any
terminator for each line.  All of them are read into the hunks (`Patch.parse_assemble`).
-/

namespace HunkEdits.Patch

open Text

/-! ### Lines as they are written -/

/-- A line of a patch as it is written. -/
structure WrittenLine where
  text : Text
  ending : LineEnding
  deriving DecidableEq, Repr

/-- A patch that is put together from its lines. -/
def assemble (ls : List WrittenLine) : Text :=
  ls.flatMap fun l => l.text ++ l.ending.text

/-- What a line says once it is cut out of the patch again. -/
def WrittenLine.content (l : WrittenLine) : Text :=
  lineContent (l.text ++ l.ending.text)

variable {l : WrittenLine} {ls : List WrittenLine} {s t : Text}

theorem lines_assemble (hn : ∀ l ∈ ls, '\n' ∉ l.text) :
    lines (assemble ls) = ls.map WrittenLine.content := by
  induction ls with
  | nil => rfl
  | cons l ls ih =>
    obtain ⟨hl, hn⟩ := List.forall_mem_cons.1 hn
    have ih := ih hn
    rw [lines] at ih ⊢
    rw [assemble, List.flatMap_cons, rawLines_terminated_append l.ending hl, List.map_cons,
      List.map_cons, ← ih]
    rfl

theorem content_of_crlf (h : l.ending = .crlf) : l.content = l.text := by
  have e : l.text ++ l.ending.text = l.text ++ ['\r'] ++ ['\n'] := by simp [h, LineEnding.text]
  rw [WrittenLine.content, e, lineContent, List.getLast?_concat, if_pos rfl, List.dropLast_concat,
    dropFinal_append_singleton]

theorem content_of_ne_crlf (h : l.ending ≠ .crlf) : l.content = dropFinal '\r' l.text := by
  have e : l.ending.text = ['\n'] := by
    cases hl : l.ending with
    | lf => rfl
    | crlf => exact absurd hl h
    | native => rfl
  rw [WrittenLine.content, e, lineContent, List.getLast?_concat, if_pos rfl, List.dropLast_concat]

theorem content_sublist (l : WrittenLine) : l.content.Sublist l.text := by
  by_cases h : l.ending = .crlf
  · rw [content_of_crlf h]
  · rw [content_of_ne_crlf h]
    exact dropFinal_sublist _ _

theorem content_eq_text (h : l.text.getLast? = some '\r' → l.ending = .crlf) :
    l.content = l.text := by
  by_cases hl : l.ending = .crlf
  · exact content_of_crlf hl
  · rw [content_of_ne_crlf hl]
    exact dropFinal_of_getLast?_ne fun hr => hl (h hr)

/-- A line keeps its beginning when it is cut out again. -/
theorem exists_content_eq_append (hl : l.text = s ++ t) (hs : s.getLast? ≠ some '\r') :
    ∃ y, l.content = s ++ y := by
  by_cases h : l.ending = .crlf
  · exact ⟨t, by rw [content_of_crlf h, hl]⟩
  · rw [content_of_ne_crlf h, hl]
    exact dropFinal_append fun _ => hs

/-! ### Renderings -/

/-- Whether a text writes a span: with its length, or without where that is one. -/
def WritesSpan (s : LineSpan) (t : Text) : Prop :=
  t = Header.writeSpan s ∨ t = Header.writeShortSpan s

/-- Whether a line writes a hunk header, with a section text behind it or without. -/
def WritesHeader (h : Header) (l : WrittenLine) : Prop :=
  ∃ old new tail, WritesSpan h.old old ∧ WritesSpan h.new new ∧
    (tail = [] ∨ ∃ title, tail = ' ' :: title) ∧ l.text = Header.frame old new tail

def IsRemark (l : WrittenLine) : Prop :=
  ∃ t, l.text = remarkMark ++ t

/-- Whether lines are written for a file header. -/
def WritesFileHeader (ls : List WrittenLine) : Prop :=
  ∃ old new remarks remarks' name name', ls = old :: remarks ++ new :: remarks' ∧
    old.text = oldFileMark ++ ' ' :: name ∧ new.text = newFileMark ++ ' ' :: name' ∧
    ∀ l ∈ remarks ++ remarks', IsRemark l

/-- What is written after the first hunk header: the lines of hunks in order, with remarks and empty
lines anywhere.  A text that ends in a carriage return has to be told from its terminator. -/
inductive WritesBody : List BodyLine → List WrittenLine → Prop
  | nil : WritesBody [] []
  | blank {bs : List BodyLine} {l : WrittenLine} {ls : List WrittenLine} (hl : l.text = [])
      (h : WritesBody bs ls) : WritesBody bs (l :: ls)
  | remark {bs : List BodyLine} {l : WrittenLine} {ls : List WrittenLine} (hl : IsRemark l)
      (h : WritesBody bs ls) : WritesBody bs (l :: ls)
  | header {bs : List BodyLine} {l : WrittenLine} {ls : List WrittenLine} {hd : Header}
      (hl : WritesHeader hd l) (h : WritesBody bs ls) : WritesBody (.header hd :: bs) (l :: ls)
  | op {bs : List BodyLine} {l : WrittenLine} {ls : List WrittenLine} {o : Op}
      (hl : l.text = o.line) (hr : o.text.getLast? = some '\r' → l.ending = .crlf)
      (h : WritesBody bs ls) : WritesBody (.op o :: bs) (l :: ls)

/-- What is written for hunks: nothing for none, and else a header and what follows it. -/
inductive WritesHunks : List BodyLine → List WrittenLine → Prop
  | nil : WritesHunks [] []
  | cons {bs : List BodyLine} {l : WrittenLine} {ls : List WrittenLine} {hd : Header}
      (hl : WritesHeader hd l) (h : WritesBody bs ls) : WritesHunks (.header hd :: bs) (l :: ls)

/-- Whether lines are a rendering of hunks, under a file header or without. -/
def Renders (hunks : List Hunk) (ls : List WrittenLine) : Prop :=
  ∃ front area, ls = front ++ area ∧ (front = [] ∨ WritesFileHeader front) ∧
    WritesHunks (hunks.flatMap bodyLines) area

/-! ### Lines of a rendering -/

theorem range?_of_writesSpan {sp : LineSpan} (hw : WritesSpan sp t) (hf : Header.Fits sp)
    (r : Text) : Header.range? (t ++ ' ' :: r) = some (sp, ' ' :: r) := by
  have hd : Header.Denotes t sp := by
    rcases hw with rfl | rfl
    · exact Header.denotes_writeSpan hf
    · exact Header.denotes_writeShortSpan hf
  exact Header.range?_of_denotes hd (by simp)

theorem frame_eq_append (old new tail : Text) :
    Header.frame old new tail = Header.frame old new [] ++ tail := by
  simp [Header.frame]

theorem getLast?_frame_nil (old new : Text) : (Header.frame old new []).getLast? = some '@' := by
  have e : Header.frame old new [] =
      ['@', '@', ' ', '-'] ++ old ++ [' ', '+'] ++ new ++ [' ', '@'] ++ ['@'] := by
    simp [Header.frame]
  rw [e, List.getLast?_concat]

/-- A written header is read, whatever its terminator takes from its section text. -/
theorem parse?_content {hd : Header} (hw : WritesHeader hd l)
    (hf : Header.Fits hd.old ∧ Header.Fits hd.new) (hn : '\n' ∉ l.text) :
    Header.parse? l.content = some hd := by
  obtain ⟨old, new, tail, hold, hnew, htail, ht⟩ := hw
  have hparse {tail : Text} (h : Header.isTail tail = true) :
      Header.parse? (Header.frame old new tail) = some hd :=
    Header.parse?_frame (range?_of_writesSpan hold hf.1) (range?_of_writesSpan hnew hf.2) h
  rcases htail with rfl | ⟨title, rfl⟩
  · have hlast : l.text.getLast? ≠ some '\r' := by
      rw [ht, getLast?_frame_nil]
      decide
    rw [content_eq_text fun h => absurd h hlast, ht]
    exact hparse rfl
  · have ht' : l.text = (Header.frame old new [] ++ [' ']) ++ title := by
      rw [ht, frame_eq_append, List.append_assoc]
      rfl
    obtain ⟨y, hy⟩ := exists_content_eq_append ht' (by simp)
    have hny : '\n' ∉ y := by
      intro hm
      refine hn ((content_sublist l).mem ?_)
      rw [hy]
      exact List.mem_append_right _ hm
    have htail : Header.isTail (' ' :: y) = true := by
      rw [Header.isTail, Bool.and_eq_true]
      exact ⟨rfl, by simpa using hny⟩
    rw [hy, List.append_assoc, List.singleton_append, ← frame_eq_append]
    exact hparse htail

theorem not_remark_of_head {c : Char} (hc : c ≠ '\\') (t : Text) :
    startsWith remarkMark (c :: t) = false := by
  simp [startsWith, remarkMark, dropLead?, Ne.symm hc]

theorem not_remark_hunkMark (t : Text) : startsWith remarkMark (hunkMark ++ t) = false := rfl

theorem exists_content_of_isRemark (h : IsRemark l) : ∃ y, l.content = remarkMark ++ y := by
  obtain ⟨t, ht⟩ := h
  exact exists_content_eq_append ht (by decide)

/-! ### What lines say -/

/-- What lines after the first hunk header say, remarks and empty lines aside. -/
def Says (ns : List Line) (bs : List BodyLine) : Prop :=
  ∃ body, List.Forall₂ Reads (ns.filter fun n => !startsWith remarkMark n.text) body ∧
    body.filter (· ≠ .blank) = bs

variable {n : Line} {ns : List Line} {b : BodyLine} {bs : List BodyLine}

theorem Says.remark (hn : startsWith remarkMark n.text = true) (h : Says ns bs) :
    Says (n :: ns) bs := by
  obtain ⟨body, hbody, hbs⟩ := h
  refine ⟨body, ?_, hbs⟩
  rwa [List.filter_cons_of_neg (by simp [hn])]

theorem Says.cons (hn : startsWith remarkMark n.text = false) (hr : Reads n b) (h : Says ns bs) :
    Says (n :: ns) ([b].filter (· ≠ .blank) ++ bs) := by
  obtain ⟨body, hbody, hbs⟩ := h
  refine ⟨b :: body, ?_, ?_⟩
  · rw [List.filter_cons_of_pos (by simp [hn])]
    exact .cons hr hbody
  · rw [← hbs, ← List.filter_append]
    rfl

/-- The lines of a rendering say what they were written for. -/
theorem says_of_writesBody (hw : WritesBody bs ls) (hn : ∀ l ∈ ls, '\n' ∉ l.text)
    (hf : ∀ b ∈ bs, b.Fits) (hns : ns.map Line.text = ls.map WrittenLine.content) : Says ns bs := by
  induction hw generalizing ns with
  | nil =>
    obtain rfl : ns = [] := by simpa using hns
    exact ⟨[], .nil, rfl⟩
  | @blank bs l ls hl _ ih =>
    obtain ⟨n, ns, rfl, hnl, hns⟩ := List.map_eq_cons_iff.1 hns
    have hn := (List.forall_mem_cons.1 hn).2
    have htext : n.text = [] := by
      rw [hnl, content_eq_text (by simp [hl]), hl]
    have hblank : Reads n .blank := htext
    exact (ih hn hf hns).cons (by rw [htext]; rfl) hblank
  | @remark bs l ls hl _ ih =>
    obtain ⟨n, ns, rfl, hnl, hns⟩ := List.map_eq_cons_iff.1 hns
    have hn := (List.forall_mem_cons.1 hn).2
    obtain ⟨y, hy⟩ := exists_content_of_isRemark hl
    exact (ih hn hf hns).remark (startsWith_iff.2 ⟨y, hnl.trans hy⟩)
  | @header bs l ls hd hl _ ih =>
    obtain ⟨n, ns, rfl, hnl, hns⟩ := List.map_eq_cons_iff.1 hns
    obtain ⟨hnl', hn⟩ := List.forall_mem_cons.1 hn
    obtain ⟨hfit, hf⟩ := List.forall_mem_cons.1 hf
    have hheader : Reads n (.header hd) := by
      rw [Reads, hnl]
      exact parse?_content hl hfit hnl'
    obtain ⟨r, hr⟩ := exists_eq_hunkMark_append hheader
    exact (ih hn hf hns).cons (by rw [hr, not_remark_hunkMark]) hheader
  | @op bs l ls o hl hr _ ih =>
    obtain ⟨n, ns, rfl, hnl, hns⟩ := List.map_eq_cons_iff.1 hns
    have hn := (List.forall_mem_cons.1 hn).2
    have hf := (List.forall_mem_cons.1 hf).2
    have hlast : l.text.getLast? = some '\r' → l.ending = .crlf := by
      rw [hl, Op.line, List.getLast?_cons]
      cases ht : o.text.getLast? with
      | none =>
        intro hm
        cases hk : o.kind <;> rw [hk] at hm <;> exact absurd hm (by decide)
      | some c =>
        rw [ht] at hr
        exact hr
    have hop : Reads n (.op o) := by
      rw [Reads, hnl, content_eq_text hlast, hl]
    have hmark : startsWith remarkMark n.text = false := by
      rw [hop, Op.line]
      exact not_remark_of_head (by cases o.kind <;> decide) o.text
    exact (ih hn hf hns).cons hmark hop

theorem flatMap_bodyLines_injective {hunks hunks' : List Hunk}
    (h : hunks.flatMap bodyLines = hunks'.flatMap bodyLines) : hunks = hunks' := by
  have h' := foldr_add_bodyLines hunks
  rw [h, foldr_add_bodyLines] at h'
  exact (Prod.mk.inj h').2.symm

theorem readHunks_of_says {hd : Header} {hunks : List Hunk} (hh : Header.parse? n.text = some hd)
    (hs : Says ns bs) (hbs : hunks.flatMap bodyLines = .header hd :: bs) :
    readHunks ((n :: ns).filter fun n => !startsWith remarkMark n.text) = .ok hunks := by
  obtain ⟨body, hbody, hfilter⟩ := hs
  obtain ⟨r, hr⟩ := exists_eq_hunkMark_append hh
  have hmark : startsWith remarkMark n.text = false := by
    rw [hr, not_remark_hunkMark]
  have hall : (hunksOf hd body).flatMap bodyLines = hunks.flatMap bodyLines := by
    rw [flatMap_bodyLines_hunksOf, hbs, ← hfilter]
    rfl
  rw [List.filter_cons_of_pos (by simp [hmark]), readHunks_eq_ok hh hbody,
    flatMap_bodyLines_injective hall]

/-! ### File headers -/

/-- A line of a file header opens no hunk and may stand in a patch without hunks. -/
theorem of_writesFileHeader (hw : WritesFileHeader ls) (hl : l ∈ ls) (hn : n.text = l.content) :
    opensHunk n = false ∧ isPreamble n = true := by
  obtain ⟨old, new, remarks, remarks', name, name', rfl, hold, hnew, hr⟩ := hw
  have hremark : IsRemark l → opensHunk n = false ∧ isPreamble n = true := by
    intro h
    obtain ⟨y, hy⟩ := exists_content_of_isRemark h
    rw [opensHunk, isPreamble, hn, hy]
    exact ⟨rfl, by simp [startsWith, dropLead?, remarkMark]⟩
  rw [List.cons_append, List.mem_cons, List.mem_append, List.mem_cons] at hl
  rcases hl with rfl | hl | rfl | hl
  · have ht : l.text = (oldFileMark ++ [' ']) ++ name := by
      rw [hold, List.append_assoc]
      rfl
    obtain ⟨y, hy⟩ := exists_content_eq_append ht (by decide)
    have hmem : n.text ∈ fileHeader (y, []) := by
      rw [hn, hy]
      exact List.mem_cons_self ..
    exact of_mem_fileHeader hmem
  · exact hremark (hr l (List.mem_append_left _ hl))
  · have ht : l.text = (newFileMark ++ [' ']) ++ name' := by
      rw [hnew, List.append_assoc]
      rfl
    obtain ⟨y, hy⟩ := exists_content_eq_append ht (by decide)
    have hmem : n.text ∈ fileHeader ([], y) := by
      rw [hn, hy]
      exact .tail _ (.head _)
    exact of_mem_fileHeader hmem
  · exact hremark (hr l (List.mem_append_right _ hl))

theorem startsWith_of_writesFileHeader (hw : WritesFileHeader ls) (area : List WrittenLine) :
    startsWith oldFileMark (assemble (ls ++ area)) = true := by
  obtain ⟨old, new, remarks, remarks', name, name', rfl, hold, -, -⟩ := hw
  rw [startsWith_iff, assemble, List.cons_append, List.cons_append, List.flatMap_cons, hold]
  exact ⟨_, by rw [List.append_assoc, List.append_assoc]⟩

theorem exists_assemble_eq_cons {hd : Header} (hw : WritesHeader hd l) (ls : List WrittenLine) :
    ∃ r, assemble (l :: ls) = '@' :: '@' :: r := by
  obtain ⟨old, new, tail, -, -, -, ht⟩ := hw
  rw [assemble, List.flatMap_cons, ht]
  exact ⟨_, rfl⟩

/-! ### Reading a rendering -/

section

variable {front area : List WrittenLine} {nf na : List Line} {hd : Header}

theorem exists_numberedLines_eq_append (hn : ∀ l ∈ front ++ area, '\n' ∉ l.text) :
    ∃ nf na, numberedLines (assemble (front ++ area)) = nf ++ na ∧
      nf.map Line.text = front.map WrittenLine.content ∧
      na.map Line.text = area.map WrittenLine.content :=
  List.map_eq_append_iff.1
    ((map_text_numberedLines _).trans ((lines_assemble hn).trans List.map_append))

theorem of_mem_front (hfront : front = [] ∨ WritesFileHeader front)
    (hnf : nf.map Line.text = front.map WrittenLine.content) (hn : n ∈ nf) :
    opensHunk n = false ∧ isPreamble n = true := by
  have hmem : n.text ∈ front.map WrittenLine.content := hnf ▸ List.mem_map_of_mem hn
  obtain ⟨l, hl, he⟩ := List.mem_map.1 hmem
  rcases hfront with rfl | hfront
  · cases hl
  · exact of_writesFileHeader hfront hl he.symm

theorem parse_assemble_nil (hfront : front = [] ∨ WritesFileHeader front)
    (hn : ∀ l ∈ front, '\n' ∉ l.text) : parse (assemble front) = .ok [] := by
  have hall : ∀ n ∈ numberedLines (assemble front), opensHunk n = false ∧ isPreamble n = true := by
    intro n
    exact of_mem_front hfront ((map_text_numberedLines _).trans (lines_assemble hn))
  rcases hfront with rfl | hfront
  · rfl
  · have hmark := startsWith_of_writesFileHeader hfront []
    rw [List.append_nil] at hmark
    rw [parse_eq_nil_iff ⟨hmark, fun n hm => (hall n hm).1⟩]
    intro n hm
    exact (hall n hm).2

/-- The lines that take part are those from the first hunk header on. -/
theorem hunkArea_assemble (hfront : front = [] ∨ WritesFileHeader front)
    (hl : WritesHeader hd l) (hopen : opensHunk n = true)
    (hnf : nf.map Line.text = front.map WrittenLine.content)
    (hall : numberedLines (assemble (front ++ l :: ls)) = nf ++ n :: ns) :
    hunkArea (assemble (front ++ l :: ls)) =
      (n :: ns).filter fun n => !startsWith remarkMark n.text := by
  have hdrop : (nf ++ n :: ns).dropWhile (fun n => !opensHunk n) = n :: ns := by
    rw [List.dropWhile_append_of_pos fun n hm => by simp [(of_mem_front hfront hnf hm).1],
      List.dropWhile_cons_of_neg (by simp [hopen])]
  rcases hfront with rfl | hfront
  · obtain rfl : nf = [] := by simpa using hnf
    obtain ⟨r, hr⟩ := exists_assemble_eq_cons hl ls
    have hmark : startsWith oldFileMark (assemble (l :: ls)) = false := by
      rw [hr]
      rfl
    rw [List.nil_append, List.nil_append] at hall
    simp only [List.nil_append, hunkArea, hmark, hall, Bool.false_eq_true, if_false]
  · simp only [hunkArea, startsWith_of_writesFileHeader hfront, hall, hdrop, if_true]

end

/-- **Every rendering is read.**  Lines that are written for hunks, whichever way, are read into
these hunks. -/
theorem parse_assemble {hunks : List Hunk} (hfit : ∀ h ∈ hunks, h.Fits)
    (hn : ∀ l ∈ ls, '\n' ∉ l.text) (hw : Renders hunks ls) : parse (assemble ls) = .ok hunks := by
  obtain ⟨front, area, rfl, hfront, harea⟩ := hw
  obtain ⟨nf, na, hall, hnf, hna⟩ := exists_numberedLines_eq_append hn
  have hfits := fits_of_mem_bodyLines hfit
  generalize hbs : hunks.flatMap bodyLines = bs at harea hfits
  cases harea with
  | nil =>
    obtain rfl : hunks = [] := flatMap_bodyLines_injective hbs
    rw [List.append_nil] at hn ⊢
    exact parse_assemble_nil hfront hn
  | @cons bs l ls hd hl hbody =>
    obtain ⟨n, ns, rfl, hnl, hns⟩ := List.map_eq_cons_iff.1 hna
    obtain ⟨hnl', hn'⟩ := List.forall_mem_cons.1 fun l h => hn l (List.mem_append_right _ h)
    obtain ⟨hfirst, hrest⟩ := List.forall_mem_cons.1 hfits
    have hparse : Header.parse? n.text = some hd := by
      rw [hnl]
      exact parse?_content hl hfirst hnl'
    have hopen : opensHunk n = true := startsWith_iff.2 (exists_eq_hunkMark_append hparse)
    have hhunk : ¬ IsHunkless (assemble (front ++ l :: ls)) := by
      rintro ⟨-, hnone⟩
      rw [hall] at hnone
      rw [hnone n (by simp)] at hopen
      exact Bool.false_ne_true hopen
    rw [parse_eq_readHunks hhunk, hunkArea_assemble hfront hl hopen hnf hall]
    exact readHunks_of_says hparse (says_of_writesBody hbody hn' hrest hns) hbs

/-- Two hunks under a file header: short and full lengths, a section text, remarks and an empty line
in between, a text that looks like a file header, one that ends in a carriage return, and both
terminators. -/
theorem parse_assemble_noisy :
    parse ("--- a\r\n\\ x\n+++ b\n@@ -1 +1,1 @@ f\r\n\n--- @@\n\\ y\r\n+é\r\r\n" ++
        "@@ -3,0 +4 @@\n+\n").toList =
      .ok [⟨⟨0, 1⟩, ⟨0, 1⟩, [⟨.delete, ['-', '-', ' ', '@', '@']⟩, ⟨.insert, ['é', '\r']⟩]⟩,
        ⟨⟨3, 0⟩, ⟨3, 1⟩, [⟨.insert, []⟩]⟩] := by
  have hw : Renders [⟨⟨0, 1⟩, ⟨0, 1⟩, [⟨.delete, ['-', '-', ' ', '@', '@']⟩,
        ⟨.insert, ['é', '\r']⟩]⟩, ⟨⟨3, 0⟩, ⟨3, 1⟩, [⟨.insert, []⟩]⟩]
      [⟨"--- a".toList, .crlf⟩, ⟨"\\ x".toList, .lf⟩, ⟨"+++ b".toList, .lf⟩,
        ⟨"@@ -1 +1,1 @@ f".toList, .crlf⟩, ⟨[], .lf⟩, ⟨"--- @@".toList, .lf⟩,
        ⟨"\\ y".toList, .crlf⟩, ⟨"+é\r".toList, .crlf⟩, ⟨"@@ -3,0 +4 @@".toList, .lf⟩,
        ⟨['+'], .lf⟩] := by
    refine ⟨[_, _, _], _, rfl, .inr ⟨_, _, [_], [], ['a'], ['b'], rfl, rfl, rfl, ?_⟩, ?_⟩
    · intro l hl
      obtain rfl := List.mem_singleton.1 hl
      exact ⟨[' ', 'x'], rfl⟩
    · refine .cons ⟨['1'], ['1', ',', '1'], _, .inr rfl, .inl rfl, .inr ⟨['f'], rfl⟩, rfl⟩ ?_
      refine .blank rfl (.op rfl (by decide) (.remark ⟨[' ', 'y'], rfl⟩ ?_))
      refine .op rfl (fun _ => rfl) ?_
      refine .header ⟨['3', ',', '0'], ['4'], _, .inl rfl, .inr rfl, .inl rfl, rfl⟩ ?_
      exact .op rfl (by decide) .nil
  exact parse_assemble (by decide) (by decide) hw

end HunkEdits.Patch
