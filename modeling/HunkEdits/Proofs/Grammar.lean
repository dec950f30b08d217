import HunkEdits.Proofs.Parsing
import HunkEdits.Proofs.Printing
import Mathlib.Data.List.TakeWhile

/-!
# The grammar of patches

Which lines of a patch take part in hunks, what is wrong with a line, and what a line says is told
here for each line by itself.  Reading a patch fails with the first fault, and without a fault the
hunks say what the lines say, in the same order (`Patch.parse_outcome`).
-/

namespace HunkEdits.Patch

open Text

variable {patch : Text} {l : Line} {ls : List Line} {b : BodyLine} {body : List BodyLine}
  {h : Header} {err : PatchError}

/-! ### Lines that take part -/

/-- Whether a patch begins with a file header and no line of it opens a hunk. -/
def IsHunkless (patch : Text) : Prop :=
  startsWith oldFileMark patch = true ∧ ∀ l ∈ numberedLines patch, opensHunk l = false

instance (patch : Text) : Decidable (IsHunkless patch) :=
  inferInstanceAs (Decidable (_ ∧ _))

/-- The lines that take part in hunks: all but the remarks, and after a file header only those from
the first line on that opens a hunk. -/
def hunkArea (patch : Text) : List Line :=
  let all := numberedLines patch
  let area := if startsWith oldFileMark patch then all.dropWhile fun l => !opensHunk l else all
  area.filter fun l => !startsWith remarkMark l.text

theorem hunkArea_of_isHunkless (hp : IsHunkless patch) : hunkArea patch = [] := by
  obtain ⟨hmark, hopen⟩ := hp
  have hdrop : (numberedLines patch).dropWhile (fun l => !opensHunk l) = [] := by
    rw [List.dropWhile_eq_nil_iff]
    intro l hl
    rw [hopen l hl]
    rfl
  simp only [hunkArea, hmark, if_true, hdrop, List.filter_nil]

theorem hunkLines_of_not_isHunkless (hp : ¬ IsHunkless patch) :
    hunkLines patch = .ok (hunkArea patch) := by
  unfold hunkLines hunkArea
  cases hmark : startsWith oldFileMark patch with
  | false => rfl
  | true =>
    have hopen : (numberedLines patch).any opensHunk = true := by
      rw [← Bool.not_eq_false]
      intro hnone
      refine hp ⟨hmark, ?_⟩
      intro l hl
      exact Bool.eq_false_iff.2 (List.any_eq_false.1 hnone l hl)
    simp only [if_true, hopen]

/-! ### Faults -/

/-- What is wrong with a line of a patch that has no hunk. -/
def strayFault? (l : Line) : Option PatchError :=
  if isPreamble l then none else some (.expectedHeader l.number l.text)

/-- What is wrong with a line that has to be a hunk header. -/
def headerFault? (l : Line) : Option PatchError :=
  if (Header.parse? l.text).isSome then none else some (.expectedHeader l.number l.text)

/-- What is wrong with a line after the first hunk header. -/
def bodyFault? (l : Line) : Option PatchError :=
  l.text.head?.bind fun c =>
    if c = '@' then headerFault? l
    else if c ∈ ['-', '+', ' '] then none
    else some (.unknownMode l.number c l.text)

/-- What is wrong with the first line of a patch that is at fault. -/
def firstFault? (patch : Text) : Option PatchError :=
  if IsHunkless patch then (numberedLines patch).findSome? strayFault?
  else
    match hunkArea patch with
    | [] => none
    | l :: ls => (headerFault? l).or (ls.findSome? bodyFault?)

theorem findSome?_strayFault? (ls : List Line) :
    ls.findSome? strayFault? =
      (ls.find? fun l => !isPreamble l).map fun l => .expectedHeader l.number l.text := by
  induction ls with
  | nil => rfl
  | cons l ls ih =>
    rw [List.findSome?_cons, List.find?_cons, strayFault?]
    cases isPreamble l with
    | true => exact ih
    | false => rfl

theorem hunkLines_of_isHunkless (hp : IsHunkless patch) :
    hunkLines patch = match (numberedLines patch).findSome? strayFault? with
      | some err => .error err
      | none => .ok [] := by
  obtain ⟨hmark, hopen⟩ := hp
  have hany : (numberedLines patch).any opensHunk = false := by
    rw [List.any_eq_false]
    intro l hl
    rw [hopen l hl]
    exact Bool.false_ne_true
  rw [findSome?_strayFault?]
  simp only [hunkLines, hmark, hany, if_true, Bool.false_eq_true, if_false]
  cases (numberedLines patch).find? fun l => !isPreamble l <;> rfl

/-! ### What lines say -/

/-- What a line after the first hunk header says: nothing, or a header, or the operation whose mark
and text it consists of. -/
def Reads (l : Line) : BodyLine → Prop
  | .blank => l.text = []
  | .header h => Header.parse? l.text = some h
  | .op o => l.text = o.line

theorem exists_eq_hunkMark_append {t : Text} (ht : Header.parse? t = some h) :
    ∃ r, t = hunkMark ++ r := by
  unfold Header.parse? at ht
  cases hl : dropLead? ['@', '@', ' ', '-'] t with
  | none => rw [hl] at ht; cases ht
  | some r =>
    have ht : t = ['@', '@', ' ', '-'] ++ r := dropLead?_eq_some_iff.1 hl
    exact ⟨' ' :: '-' :: r, ht⟩

theorem readHeader_eq_ok_iff : readHeader l = .ok h ↔ Header.parse? l.text = some h := by
  rw [readHeader]
  cases Header.parse? l.text <;> simp

theorem readHeader_eq_error (hf : headerFault? l = some err) : readHeader l = .error err := by
  rw [headerFault?] at hf
  rw [readHeader]
  cases hp : Header.parse? l.text with
  | some h => rw [hp] at hf; cases hf
  | none => rw [hp] at hf; rw [← Option.some.inj hf]

theorem exists_parse?_of_headerFault? (hf : headerFault? l = none) :
    ∃ h, Header.parse? l.text = some h := by
  rw [headerFault?] at hf
  cases hp : Header.parse? l.text with
  | some h => exact ⟨h, rfl⟩
  | none => rw [hp] at hf; cases hf

theorem classify_at {t : Text} (ht : l.text = '@' :: t) :
    classify l = (readHeader l).map .header := by
  rw [classify, ht]
  rfl

/-- A line is read as what it says. -/
theorem classify_eq_ok_iff : classify l = .ok b ↔ Reads l b := by
  constructor
  · intro hc
    unfold classify at hc
    split at hc
    next ht => cases hc; exact ht
    next =>
      cases hr : readHeader l with
      | error err => rw [hr] at hc; cases hc
      | ok h => rw [hr] at hc; cases hc; exact readHeader_eq_ok_iff.1 hr
    next ht => cases hc; exact ht
    next ht => cases hc; exact ht
    next ht => cases hc; exact ht
    next => cases hc
  · intro hr
    cases b with
    | blank => rw [classify, hr]
    | header h =>
      obtain ⟨t, ht⟩ := exists_eq_hunkMark_append hr
      rw [classify_at ht, readHeader_eq_ok_iff.2 hr]
      rfl
    | op o => exact classify_text hr trivial

theorem classify_eq_error (hf : bodyFault? l = some err) : classify l = .error err := by
  unfold bodyFault? at hf
  cases ht : l.text with
  | nil => rw [ht] at hf; cases hf
  | cons c t =>
    rw [ht, List.head?_cons, Option.bind_some] at hf
    split at hf
    next hc =>
      rw [classify_at (hc ▸ ht), readHeader_eq_error hf]
      rfl
    next hc =>
      split at hf
      next => cases hf
      next hmark =>
        obtain rfl := Option.some.inj hf
        simp only [List.mem_cons, List.not_mem_nil, or_false, not_or] at hmark
        rw [classify, ht]
        split <;> simp_all

theorem exists_reads_of_bodyFault? (hf : bodyFault? l = none) : ∃ b, Reads l b := by
  unfold bodyFault? at hf
  cases ht : l.text with
  | nil => exact ⟨.blank, ht⟩
  | cons c t =>
    rw [ht, List.head?_cons, Option.bind_some] at hf
    split at hf
    next =>
      obtain ⟨h, hp⟩ := exists_parse?_of_headerFault? hf
      exact ⟨.header h, hp⟩
    next =>
      split at hf
      next hmark =>
        simp only [List.mem_cons, List.not_mem_nil, or_false] at hmark
        rcases hmark with rfl | rfl | rfl
        · exact ⟨.op ⟨.delete, t⟩, ht⟩
        · exact ⟨.op ⟨.insert, t⟩, ht⟩
        · exact ⟨.op ⟨.keep, t⟩, ht⟩
      next => cases hf

/-! ### Hunks of lines -/

/-- The operations before the next header and the hunks after it say what the lines say. -/
theorem flatMap_bodyLines_foldr_add (body : List BodyLine) :
    (body.foldr BodyLine.add ([], [])).1.map BodyLine.op ++
        (body.foldr BodyLine.add ([], [])).2.flatMap bodyLines =
      body.filter (· ≠ .blank) := by
  induction body with
  | nil => rfl
  | cons b body ih =>
    rw [List.foldr_cons]
    generalize body.foldr BodyLine.add ([], []) = rest at ih ⊢
    obtain ⟨ops, hunks⟩ := rest
    cases b with
    | blank => exact ih
    | header h => exact congrArg (BodyLine.header h :: ·) ih
    | op o => exact congrArg (BodyLine.op o :: ·) ih

theorem flatMap_bodyLines_hunksOf (h : Header) (body : List BodyLine) :
    (hunksOf h body).flatMap bodyLines = (BodyLine.header h :: body).filter (· ≠ .blank) :=
  flatMap_bodyLines_foldr_add (.header h :: body)

theorem readHunks_eq_ok (hh : Header.parse? l.text = some h) (hb : List.Forall₂ Reads ls body) :
    readHunks (l :: ls) = .ok (hunksOf h body) := by
  have hm : ls.mapM classify = .ok body :=
    mapM_eq_ok_iff_forall₂.2 (hb.imp fun _ _ => classify_eq_ok_iff.2)
  rw [readHunks, readHeader_eq_ok_iff.2 hh, hm]
  rfl

theorem readHunks_eq_error (hf : (headerFault? l).or (ls.findSome? bodyFault?) = some err) :
    readHunks (l :: ls) = .error err := by
  rw [readHunks]
  cases hh : headerFault? l with
  | some err' =>
    rw [hh, Option.some_or] at hf
    rw [readHeader_eq_error hh, ← Option.some.inj hf]
    rfl
  | none =>
    rw [hh, Option.none_or] at hf
    obtain ⟨h, hp⟩ := exists_parse?_of_headerFault? hh
    have hm : ls.mapM classify = .error err := by
      apply mapM_eq_error _ _ hf
      · intro l _ err hl
        exact classify_eq_error hl
      · intro l _ hl
        obtain ⟨b, hb⟩ := exists_reads_of_bodyFault? hl
        exact ⟨b, classify_eq_ok_iff.2 hb⟩
    rw [readHeader_eq_ok_iff.2 hp, hm]
    rfl

/-- Lines without a fault are read into hunks that say what the lines say. -/
theorem exists_readHunks_eq_ok (hf : (headerFault? l).or (ls.findSome? bodyFault?) = none) :
    ∃ hunks body, readHunks (l :: ls) = .ok hunks ∧ List.Forall₂ Reads (l :: ls) body ∧
      hunks.flatMap bodyLines = body.filter (· ≠ .blank) := by
  obtain ⟨hh, hls⟩ := Option.or_eq_none_iff.1 hf
  rw [List.findSome?_eq_none_iff] at hls
  obtain ⟨h, hp⟩ := exists_parse?_of_headerFault? hh
  obtain ⟨body, hbody⟩ : ∃ body, ls.mapM classify = .ok body := by
    apply mapM_eq_ok
    intro l hl
    obtain ⟨b, hb⟩ := exists_reads_of_bodyFault? (hls l hl)
    exact ⟨b, classify_eq_ok_iff.2 hb⟩
  have hreads : List.Forall₂ Reads ls body :=
    (mapM_eq_ok_iff_forall₂.1 hbody).imp fun _ _ => classify_eq_ok_iff.1
  have hfirst : Reads l (.header h) := hp
  exact ⟨_, _, readHunks_eq_ok hp hreads, .cons hfirst hreads, flatMap_bodyLines_hunksOf h body⟩

/-! ### The outcome -/

theorem parse_eq_readHunks (hp : ¬ IsHunkless patch) :
    parse patch = readHunks (hunkArea patch) := by
  rw [parse, hunkLines_of_not_isHunkless hp]
  rfl

theorem parse_eq_error (hf : firstFault? patch = some err) : parse patch = .error err := by
  unfold firstFault? at hf
  split at hf
  next hp =>
    rw [parse, hunkLines_of_isHunkless hp, hf]
    rfl
  next hp =>
    rw [parse_eq_readHunks hp]
    cases ha : hunkArea patch with
    | nil => rw [ha] at hf; cases hf
    | cons l ls =>
      rw [ha] at hf
      exact readHunks_eq_error hf

theorem exists_parse_eq_ok (hf : firstFault? patch = none) :
    ∃ hunks body, parse patch = .ok hunks ∧ List.Forall₂ Reads (hunkArea patch) body ∧
      hunks.flatMap bodyLines = body.filter (· ≠ .blank) := by
  unfold firstFault? at hf
  split at hf
  next hp =>
    rw [parse, hunkLines_of_isHunkless hp, hf, hunkArea_of_isHunkless hp]
    exact ⟨[], [], rfl, .nil, rfl⟩
  next hp =>
    rw [parse_eq_readHunks hp]
    cases ha : hunkArea patch with
    | nil => exact ⟨[], [], rfl, .nil, rfl⟩
    | cons l ls =>
      rw [ha] at hf
      exact exists_readHunks_eq_ok hf

theorem parse_eq_error_iff : parse patch = .error err ↔ firstFault? patch = some err := by
  refine ⟨?_, parse_eq_error⟩
  intro herr
  cases hf : firstFault? patch with
  | none =>
    obtain ⟨hunks, body, hok, -⟩ := exists_parse_eq_ok hf
    rw [hok] at herr
    cases herr
  | some err' =>
    rw [parse_eq_error hf] at herr
    rw [Except.error.inj herr]

theorem firstFault?_eq_none_iff (hp : IsHunkless patch) :
    firstFault? patch = none ↔ ∀ l ∈ numberedLines patch, isPreamble l = true := by
  rw [firstFault?, if_pos hp, List.findSome?_eq_none_iff]
  refine forall₂_congr fun l _ => ?_
  rw [strayFault?]
  cases isPreamble l <;> simp

/-! ### One hunk for each header -/

/-- Whether a line of a patch says a hunk header. -/
def BodyLine.isHeader : BodyLine → Bool
  | header _ => true
  | blank | op _ => false

theorem countP_isHeader_bodyLines (k : Hunk) : (bodyLines k).countP BodyLine.isHeader = 1 := by
  have hops : (k.ops.map BodyLine.op).countP BodyLine.isHeader = 0 := by
    rw [List.countP_map, List.countP_eq_zero]
    intro op _
    exact Bool.false_ne_true
  rw [bodyLines, List.countP_cons_of_pos rfl, hops]

theorem length_eq_countP_isHeader (hunks : List Hunk) :
    hunks.length = (hunks.flatMap bodyLines).countP BodyLine.isHeader := by
  induction hunks with
  | nil => rfl
  | cons k hunks ih =>
    rw [List.flatMap_cons, List.countP_append, countP_isHeader_bodyLines, ← ih, List.length_cons,
      Nat.add_comm]

theorem Reads.isHeader_eq (hr : Reads l b) : b.isHeader = (l.text.head? == some '@') := by
  cases b with
  | blank =>
    rw [show l.text = [] from hr]
    rfl
  | header h =>
    obtain ⟨t, ht⟩ := exists_eq_hunkMark_append hr
    rw [ht]
    rfl
  | op o =>
    rw [show l.text = o.line from hr, Op.line]
    cases o.kind <;> rfl

theorem countP_isHeader_filter (body : List BodyLine) :
    (body.filter (· ≠ .blank)).countP BodyLine.isHeader = body.countP BodyLine.isHeader := by
  rw [List.countP_filter]
  refine List.countP_congr ?_
  intro b _
  cases b <;> simp [BodyLine.isHeader]

/-- As many lines say a header as begin with an at sign. -/
theorem countP_isHeader_of_reads (hr : List.Forall₂ Reads ls body) :
    body.countP BodyLine.isHeader = ls.countP fun l => l.text.head? == some '@' := by
  induction hr with
  | nil => rfl
  | cons hl _ ih => rw [List.countP_cons, List.countP_cons, hl.isHeader_eq, ih]

theorem parse_eq_nil_iff (hp : IsHunkless patch) :
    parse patch = .ok [] ↔ ∀ l ∈ numberedLines patch, isPreamble l = true := by
  rw [← firstFault?_eq_none_iff hp]
  constructor
  · intro hok
    cases hf : firstFault? patch with
    | none => rfl
    | some err =>
      rw [parse_eq_error hf] at hok
      cases hok
  · intro hf
    obtain ⟨hunks, body, hok, hreads, hall⟩ := exists_parse_eq_ok hf
    rw [hunkArea_of_isHunkless hp, List.forall₂_nil_left_iff] at hreads
    have hlen := length_eq_countP_isHeader hunks
    rw [hall, hreads, List.filter_nil] at hlen
    rw [hok, List.eq_nil_of_length_eq_zero hlen]

/-- **The grammar of patches.**  A patch without hunks is read if and only if each of its lines may
stand in one.  Reading fails exactly with the first fault.  Where there is none, there is one hunk
for each line that begins with an at sign, and the hunks, taken as their headers and operations, are
what the lines that take part say, empty lines aside. -/
theorem parse_outcome (patch : Text) :
    (IsHunkless patch → (parse patch = .ok [] ↔ ∀ l ∈ numberedLines patch, isPreamble l = true)) ∧
    (∀ err, parse patch = .error err ↔ firstFault? patch = some err) ∧
    (firstFault? patch = none → ∃ hunks body, parse patch = .ok hunks ∧
      List.Forall₂ Reads (hunkArea patch) body ∧
      hunks.flatMap bodyLines = body.filter (· ≠ .blank) ∧
      hunks.length = (hunkArea patch).countP fun l => l.text.head? == some '@') := by
  refine ⟨parse_eq_nil_iff, fun _ => parse_eq_error_iff, ?_⟩
  intro hf
  obtain ⟨hunks, body, hok, hreads, hall⟩ := exists_parse_eq_ok hf
  refine ⟨hunks, body, hok, hreads, hall, ?_⟩
  rw [length_eq_countP_isHeader, hall, countP_isHeader_filter, countP_isHeader_of_reads hreads]

/-- A file header alone; a fault that comes after a file header, a remark and an empty line, and
before another fault; and two hunks. -/
theorem parse_outcome_three :
    parse "--- a\n \t\n\\ no end\n".toList = .ok [] ∧
    parse "--- a\n+++ b\n@@ -1 +1 @@\n\\ no end\n\n*b\n@ c\n".toList =
      .error (.unknownMode 6 '*' ['*', 'b']) ∧
    ∃ hunks, parse "@@ -1 +1 @@\n-a\n\n+b\n@@ -3,0 +4 @@ f\n+@\n".toList = .ok hunks ∧
      hunks.length = 2 := by
  refine ⟨((parse_outcome _).1 (by decide)).2 (by decide),
    ((parse_outcome _).2.1 _).2 (by decide), ?_⟩
  obtain ⟨hunks, -, hok, -, -, hlen⟩ :=
    (parse_outcome "@@ -1 +1 @@\n-a\n\n+b\n@@ -3,0 +4 @@ f\n+@\n".toList).2.2 (by decide)
  exact ⟨hunks, hok, hlen⟩

end HunkEdits.Patch
