import HunkEdits.Proofs.Line
import HunkEdits.Proofs.Result

/-!
# Reading patches

Every text of an operation that is read is a part of one line of the patch, so it holds no line feed
(`Patch.newline_notMem_of_parse`).  The first lines of hunks that are read are words
(`Patch.start_lt_of_parse`).
-/

namespace HunkEdits.Patch

open Text

/-! ### Texts of operations -/

theorem text_of_classify {l : Line} {op : Op} (h : classify l = .ok (.op op)) :
    ∃ c, l.text = c :: op.text := by
  unfold classify at h
  split at h
  next => cases h
  next => cases hr : readHeader l <;> rw [hr] at h <;> cases h
  next heq => cases h; exact ⟨_, heq⟩
  next heq => cases h; exact ⟨_, heq⟩
  next heq => cases h; exact ⟨_, heq⟩
  next => cases h

theorem mem_of_mem_add {bs : List BodyLine} {op : Op} :
    (op ∈ (bs.foldr BodyLine.add ([], [])).1 → BodyLine.op op ∈ bs) ∧
      ∀ h ∈ (bs.foldr BodyLine.add ([], [])).2, op ∈ h.ops → BodyLine.op op ∈ bs := by
  induction bs with
  | nil => simp
  | cons b bs ih =>
    obtain ⟨ih₁, ih₂⟩ := ih
    rw [List.foldr_cons]
    generalize bs.foldr BodyLine.add ([], []) = rest at ih₁ ih₂ ⊢
    obtain ⟨ops, hunks⟩ := rest
    cases b with
    | blank =>
      refine ⟨?_, ?_⟩
      · intro h
        exact .tail _ (ih₁ h)
      · intro h hh ho
        exact .tail _ (ih₂ h hh ho)
    | header hd =>
      refine ⟨?_, ?_⟩
      · intro h
        cases h
      · intro h hh ho
        rcases List.mem_cons.1 hh with rfl | hh
        · exact .tail _ (ih₁ ho)
        · exact .tail _ (ih₂ h hh ho)
    | op o =>
      refine ⟨?_, ?_⟩
      · intro h
        rcases List.mem_cons.1 h with rfl | h
        · exact .head _
        · exact .tail _ (ih₁ h)
      · intro h hh ho
        exact .tail _ (ih₂ h hh ho)

theorem newline_notMem_of_mem_numberedLines {patch : Text} {l : Line}
    (h : l ∈ numberedLines patch) : '\n' ∉ l.text := by
  obtain ⟨⟨t, k⟩, ht, rfl⟩ := List.mem_map.1 h
  exact newline_notMem_of_mem_lines (List.fst_mem_of_mem_zipIdx ht)

theorem mem_numberedLines_of_hunkLines {patch : Text} {ls : List Line}
    (h : hunkLines patch = .ok ls) {l : Line} (hl : l ∈ ls) : l ∈ numberedLines patch := by
  unfold hunkLines at h
  simp only at h
  split at h
  · split at h
    · obtain rfl := Except.ok.inj h
      exact (List.dropWhile_sublist _).mem (List.mem_filter.1 hl).1
    · split at h
      · cases h
      · obtain rfl := Except.ok.inj h
        cases hl
  · obtain rfl := Except.ok.inj h
    exact (List.mem_filter.1 hl).1

/-- The text of an operation of a patch is a line of the patch without its first character. -/
theorem exists_line_of_parse {patch : Text} {hunks : List Hunk} (h : parse patch = .ok hunks)
    {k : Hunk} (hk : k ∈ hunks) {op : Op} (hop : op ∈ k.ops) :
    ∃ l ∈ numberedLines patch, ∃ c, l.text = c :: op.text := by
  obtain ⟨ls, hls, h⟩ := bind_eq_ok_iff.1 h
  cases ls with
  | nil =>
    obtain rfl : [] = hunks := Except.ok.inj h
    cases hk
  | cons l ls =>
    obtain ⟨hd, _, h⟩ := bind_eq_ok_iff.1 h
    obtain ⟨body, hbody, h⟩ := bind_eq_ok_iff.1 h
    obtain rfl : hunksOf hd body = hunks := Except.ok.inj h
    have hmem : BodyLine.op op ∈ BodyLine.header hd :: body := mem_of_mem_add.2 k hk hop
    have hop' : BodyLine.op op ∈ body := (List.mem_cons.1 hmem).resolve_left (by simp)
    obtain ⟨l', hl', hc⟩ := mem_of_mapM_eq_ok hbody hop'
    exact ⟨l', mem_numberedLines_of_hunkLines hls (List.mem_cons_of_mem _ hl'),
      text_of_classify hc⟩

/-- The texts of the operations of a patch hold no line feed. -/
theorem newline_notMem_of_parse {patch : Text} {hunks : List Hunk} (h : parse patch = .ok hunks) :
    ∀ k ∈ hunks, ∀ op ∈ k.ops, '\n' ∉ op.text := by
  intro k hk op hop
  obtain ⟨l, hl, c, hc⟩ := exists_line_of_parse h hk hop
  have hn := newline_notMem_of_mem_numberedLines hl
  rw [hc] at hn
  exact List.not_mem_of_not_mem_cons hn

/-- The texts of the operations of a patch are made of its characters. -/
theorem mem_of_mem_parse {patch : Text} {hunks : List Hunk} (h : parse patch = .ok hunks)
    {k : Hunk} (hk : k ∈ hunks) {op : Op} (hop : op ∈ k.ops) {c : Char} (hc : c ∈ op.text) :
    c ∈ patch := by
  obtain ⟨l, hl, a, ha⟩ := exists_line_of_parse h hk hop
  obtain ⟨⟨t, n⟩, ht, rfl⟩ := List.mem_map.1 hl
  have hct : c ∈ t := by
    rw [show t = a :: op.text from ha]
    exact List.mem_cons_of_mem _ hc
  exact mem_of_mem_lines (List.fst_mem_of_mem_zipIdx ht) hct

/-! ### First lines of hunks -/

theorem start_lt_of_resolve? {start : Text} {length : Option Text} {s : LineSpan}
    (h : Header.resolve? start length = some s) : s.start < wordBound := by
  obtain ⟨k, hk, h⟩ := Option.bind_eq_some_iff.1 h
  have hlt : k < wordBound := Nat.lt_succ_of_le (Decimal.toNat?_eq_some_iff.1 hk).2.2.2
  cases length with
  | none =>
    simp only [Option.ite_none_left_eq_some, Option.some.injEq] at h
    obtain ⟨-, rfl⟩ := h
    exact Nat.lt_of_le_of_lt (Nat.sub_le k 1) hlt
  | some length =>
    simp only at h
    split at h
    · obtain rfl := Option.some.inj h
      exact hlt
    · simp only [Option.ite_none_left_eq_some, Option.map_eq_some_iff] at h
      obtain ⟨-, count, -, rfl⟩ := h
      exact Nat.lt_of_le_of_lt (Nat.sub_le k 1) hlt

theorem start_lt_of_range? {t rest : Text} {s : LineSpan} (h : Header.range? t = some (s, rest)) :
    s.start < wordBound := by
  unfold Header.range? at h
  simp only at h
  split at h
  all_goals
    obtain ⟨s', hs, heq⟩ := Option.map_eq_some_iff.1 h
    obtain ⟨rfl, -⟩ := Prod.mk.inj heq
    exact start_lt_of_resolve? hs

theorem start_lt_of_readHeader {l : Line} {hd : Header} (h : readHeader l = .ok hd) :
    hd.old.start < wordBound := by
  unfold readHeader at h
  split at h
  · rename_i hd' hp
    obtain rfl := Except.ok.inj h
    obtain ⟨t, -, hp⟩ := Option.bind_eq_some_iff.1 hp
    obtain ⟨⟨old, rest⟩, hold, hp⟩ := Option.bind_eq_some_iff.1 hp
    obtain ⟨t', -, hp⟩ := Option.bind_eq_some_iff.1 hp
    obtain ⟨⟨new, rest'⟩, -, hp⟩ := Option.bind_eq_some_iff.1 hp
    obtain ⟨t'', -, hp⟩ := Option.bind_eq_some_iff.1 hp
    simp only [Option.ite_none_right_eq_some, Option.some.injEq] at hp
    obtain ⟨-, rfl⟩ := hp
    exact start_lt_of_range? hold
  · cases h

theorem readHeader_of_classify {l : Line} {hd : Header} (h : classify l = .ok (.header hd)) :
    readHeader l = .ok hd := by
  unfold classify at h
  split at h
  next => cases h
  next =>
    obtain ⟨hd', hr, heq⟩ := map_eq_ok_iff.1 h
    rw [hr, BodyLine.header.inj heq]
  all_goals cases h

/-- The hunks of a patch stand behind the headers that are read. -/
theorem exists_header_of_mem_add {bs : List BodyLine} {k : Hunk}
    (hk : k ∈ (bs.foldr BodyLine.add ([], [])).2) :
    ∃ hd, BodyLine.header hd ∈ bs ∧ k.old = hd.old := by
  induction bs with
  | nil => cases hk
  | cons b bs ih =>
    rw [List.foldr_cons] at hk
    cases b with
    | header hd =>
      rcases List.mem_cons.1 hk with rfl | hk
      · exact ⟨hd, .head _, rfl⟩
      · obtain ⟨hd', hmem, he⟩ := ih hk
        exact ⟨hd', .tail _ hmem, he⟩
    | blank | op =>
      obtain ⟨hd', hmem, he⟩ := ih hk
      exact ⟨hd', .tail _ hmem, he⟩

/-- The first line of a hunk that is read is a word. -/
theorem start_lt_of_parse {patch : Text} {hunks : List Hunk} (h : parse patch = .ok hunks) :
    ∀ k ∈ hunks, k.old.start < wordBound := by
  intro k hk
  obtain ⟨ls, -, h⟩ := bind_eq_ok_iff.1 h
  cases ls with
  | nil =>
    obtain rfl : [] = hunks := Except.ok.inj h
    cases hk
  | cons l ls =>
    obtain ⟨hd, hhd, h⟩ := bind_eq_ok_iff.1 h
    obtain ⟨body, hbody, h⟩ := bind_eq_ok_iff.1 h
    obtain rfl : hunksOf hd body = hunks := Except.ok.inj h
    have hk' : k ∈ ((BodyLine.header hd :: body).foldr BodyLine.add ([], [])).2 := hk
    obtain ⟨hd', hmem, hold⟩ := exists_header_of_mem_add hk'
    rw [hold]
    rcases List.mem_cons.1 hmem with heq | hmem
    · obtain rfl := BodyLine.header.inj heq
      exact start_lt_of_readHeader hhd
    · obtain ⟨l', -, hl'⟩ := mem_of_mapM_eq_ok hbody hmem
      exact start_lt_of_readHeader (readHeader_of_classify hl')

end HunkEdits.Patch
