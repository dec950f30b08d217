import HunkEdits.Proofs.LineRefinement

/-!
# The raw lines that patching leaves

Patching the raw lines of a text leaves raw lines that end in a line feed, with one exception: the
last line of the text, where it has no terminator and stays (`Op.exists_pieces_eq`).  So what is
left are the raw lines of the text that they make up, unless something is inserted behind that last
line; then it and the line behind it become one (`Op.rawLines_pieces`).
-/

namespace HunkEdits

/-! ### Lines put together -/

namespace Text

variable {p : Text} {ps : List Text}

/-- Lines are cut from each other and from what follows them. -/
theorem rawLines_flatten_append (h : ∀ p ∈ ps, IsLine p) (t : Text) :
    rawLines (ps.flatten ++ t) = ps ++ rawLines t := by
  induction ps with
  | nil => rfl
  | cons p ps ih =>
    obtain ⟨⟨l, rfl, hl⟩, hps⟩ := List.forall_mem_cons.1 h
    rw [List.flatten_cons, List.append_assoc, List.append_assoc, List.singleton_append,
      rawLines_line_append hl, ih hps]
    rfl

theorem rawLines_flatten (h : ∀ p ∈ ps, IsLine p) : rawLines ps.flatten = ps := by
  have := rawLines_flatten_append h []
  simpa using this

/-- Text without a line feed goes on to the end of the line behind it. -/
theorem rawLines_append_isLine {b : Text} (hb : '\n' ∉ b) (hp : IsLine p) (t : Text) :
    rawLines (b ++ p ++ t) = (b ++ p) :: rawLines t := by
  obtain ⟨l, rfl, hl⟩ := hp
  have := rawLines_line_append (List.not_mem_append hb hl) t
  simpa using this

end Text

/-! ### Patching raw lines -/

namespace Op

variable {ending : LineEnding} {ops : List Op} {raw : List Text}

theorem patchLines_append (a b : List Op) (raw : List Text) :
    patchLines ending (a ++ b) raw =
      ((patchLines ending a raw).1 ++ (patchLines ending b (patchLines ending a raw).2).1,
        (patchLines ending b (patchLines ending a raw).2).2) := by
  induction a generalizing raw with
  | nil => rfl
  | cons op a ih =>
    rw [List.cons_append]
    cases hk : op.kind with
    | keep => rw [patchLines_keep hk, patchLines_keep hk, ih, List.append_assoc]
    | delete => rw [patchLines_delete hk, patchLines_delete hk, ih]
    | insert => rw [patchLines_insert hk, patchLines_insert hk, ih, List.cons_append]

/-- Lines that operations do not reach are left. -/
theorem patchLines_append_right (h : (ops.countP fun op => op.kind.consumes) ≤ raw.length)
    (more : List Text) : patchLines ending ops (raw ++ more) =
      ((patchLines ending ops raw).1, (patchLines ending ops raw).2 ++ more) := by
  induction ops generalizing raw with
  | nil => rfl
  | cons op ops ih =>
    rw [List.countP_cons] at h
    cases hk : op.kind with
    | insert =>
      rw [hk, OpKind.consumes, if_neg Bool.false_ne_true] at h
      rw [patchLines_insert hk, patchLines_insert hk, ih h]
    | keep =>
      rw [hk, OpKind.consumes, if_pos rfl] at h
      cases raw with
      | nil => simp at h
      | cons r raw =>
        rw [patchLines_keep hk, patchLines_keep hk]
        simp only [List.cons_append, List.take_succ_cons, List.take_zero, List.drop_succ_cons,
          List.drop_zero, ih (Nat.le_of_succ_le_succ h)]
    | delete =>
      rw [hk, OpKind.consumes, if_pos rfl] at h
      cases raw with
      | nil => simp at h
      | cons r raw =>
        rw [patchLines_delete hk, patchLines_delete hk]
        simp only [List.cons_append, List.drop_succ_cons, List.drop_zero,
          ih (Nat.le_of_succ_le_succ h)]

theorem patchLines_nil (ending : LineEnding) (ops : List Op) :
    patchLines ending ops [] =
      ((ops.filter fun op => op.kind == .insert).map fun op => op.text ++ ending.text, []) := by
  induction ops with
  | nil => rfl
  | cons op ops ih =>
    cases hk : op.kind with
    | keep => rw [patchLines_keep hk, List.filter_cons_of_neg (by simp [hk])]; simp [ih]
    | delete => rw [patchLines_delete hk, List.filter_cons_of_neg (by simp [hk])]; simp [ih]
    | insert => rw [patchLines_insert hk, List.filter_cons_of_pos (by simp [hk])]; simp [ih]

theorem patchLines_replicate_keep (ending : LineEnding) (n : Nat) (t : Text) (raw : List Text) :
    patchLines ending (List.replicate n ⟨.keep, t⟩) raw = (raw.take n, raw.drop n) := by
  induction n generalizing raw with
  | zero => rfl
  | succ n ih =>
    rw [List.replicate_succ, patchLines_keep rfl, ih, List.drop_drop]
    cases raw <;> simp [Nat.add_comm]

theorem isLine_patchLines (hn : ∀ op ∈ ops, '\n' ∉ op.text) (hraw : ∀ r ∈ raw, Text.IsLine r) :
    ∀ p ∈ (patchLines ending ops raw).1, Text.IsLine p := by
  induction ops generalizing raw with
  | nil => exact List.forall_mem_nil _
  | cons op ops ih =>
    obtain ⟨hop, hn⟩ := List.forall_mem_cons.1 hn
    have hdrop : ∀ r ∈ raw.drop 1, Text.IsLine r := by
      intro r hr
      exact hraw r (List.mem_of_mem_drop hr)
    have htake : ∀ r ∈ raw.take 1, Text.IsLine r := by
      intro r hr
      exact hraw r (List.mem_of_mem_take hr)
    cases hk : op.kind with
    | keep =>
      rw [patchLines_keep hk]
      exact List.forall_mem_append.2 ⟨htake, ih hn hdrop⟩
    | delete =>
      rw [patchLines_delete hk]
      exact ih hn hdrop
    | insert =>
      rw [patchLines_insert hk]
      exact List.forall_mem_cons.2 ⟨Text.isLine_terminated ending hop, ih hn hraw⟩

/-! ### Where operations stand -/

/-- Operations with the lines they stand at, the first one at `line`. -/
def placed (line : Nat) : List Op → List (Nat × Op)
  | [] => []
  | op :: ops => (line, op) :: placed (line + if op.kind.consumes then 1 else 0) ops

/-- Whether the last of `n` lines stays and something is inserted behind it. -/
def FollowsLast (n : Nat) (placed : List (Nat × Op)) : Prop :=
  (∀ s ∈ placed, s.2.kind = .delete → s.1 + 1 ≠ n) ∧
    ∃ s ∈ placed, s.2.kind = .insert ∧ n ≤ s.1

instance (n : Nat) (placed : List (Nat × Op)) : Decidable (FollowsLast n placed) :=
  inferInstanceAs (Decidable ((∀ s ∈ placed, _ → _) ∧ ∃ s ∈ placed, _ ∧ _))

theorem FollowsLast.of_mem_iff {n : Nat} {p q : List (Nat × Op)} (h : FollowsLast n p)
    (hpq : ∀ s, s.2.kind ≠ .keep → (s ∈ p ↔ s ∈ q)) : FollowsLast n q := by
  obtain ⟨hdel, s, hs, hins, hle⟩ := h
  refine ⟨?_, s, (hpq s (by simp [hins])).1 hs, hins, hle⟩
  intro s hs hk
  exact hdel s ((hpq s (by simp [hk])).2 hs) hk

variable {line : Nat} {s : Nat × Op}

theorem placed_append (line : Nat) (a b : List Op) :
    placed line (a ++ b) =
      placed line a ++ placed (line + a.countP fun op => op.kind.consumes) b := by
  induction a generalizing line with
  | nil => rfl
  | cons op a ih =>
    rw [List.cons_append, placed, placed, ih, List.countP_cons, List.cons_append]
    congr 3
    omega

/-- An operation stands behind the lines of the operations before it. -/
theorem mem_placed_iff : s ∈ placed line ops ↔
    ∃ before after, ops = before ++ s.2 :: after ∧
      s.1 = line + before.countP fun op => op.kind.consumes := by
  constructor
  · intro h
    induction ops generalizing line with
    | nil => cases h
    | cons op ops ih =>
      rw [placed] at h
      rcases List.mem_cons.1 h with rfl | h
      · exact ⟨[], ops, rfl, rfl⟩
      · obtain ⟨before, after, rfl, hline⟩ := ih h
        refine ⟨op :: before, after, rfl, ?_⟩
        rw [hline, List.countP_cons]
        omega
  · rintro ⟨before, after, rfl, hline⟩
    rw [placed_append, ← hline, placed]
    exact List.mem_append_right _ (List.mem_cons_self ..)

theorem le_of_mem_placed (h : s ∈ placed line ops) : line ≤ s.1 := by
  obtain ⟨before, after, -, hline⟩ := mem_placed_iff.1 h
  omega

theorem le_countP_of_mem_placed (h : s ∈ placed line ops) :
    s.1 + (if s.2.kind.consumes then 1 else 0) ≤ line + ops.countP fun op => op.kind.consumes := by
  obtain ⟨before, after, rfl, hline⟩ := mem_placed_iff.1 h
  rw [hline, List.countP_append, List.countP_cons]
  omega

theorem mem_of_mem_placed (h : s ∈ placed line ops) : s.2 ∈ ops := by
  obtain ⟨before, after, hops, -⟩ := mem_placed_iff.1 h
  rw [hops]
  exact List.mem_append_right _ (List.mem_cons_self ..)

theorem exists_mem_placed {op : Op} (h : op ∈ ops) (line : Nat) :
    ∃ k, (k, op) ∈ placed line ops := by
  obtain ⟨before, after, hops⟩ := List.append_of_mem h
  exact ⟨_, mem_placed_iff.2 ⟨before, after, hops, rfl⟩⟩

/-- Behind an operation that keeps line `n` the last line is followed by every insertion, and before
it by none. -/
theorem followsLast_iff_of_keep {before after : List Op} {op : Op} {n : Nat}
    (hbefore : (before.countP fun op => op.kind.consumes) = n) (hk : op.kind = .keep) :
    FollowsLast (n + 1) (placed 0 (before ++ op :: after)) ↔ ∃ op ∈ after, op.kind = .insert := by
  have hplaced : placed 0 (before ++ op :: after) =
      placed 0 before ++ (n, op) :: placed (n + 1) after := by
    rw [placed_append, hbefore, placed, hk, OpKind.consumes, if_pos rfl, Nat.zero_add]
  have hfront : ∀ s ∈ placed 0 before, s.1 + (if s.2.kind.consumes then 1 else 0) ≤ n := by
    intro s hs
    have := le_countP_of_mem_placed hs
    rwa [hbefore, Nat.zero_add] at this
  rw [hplaced]
  constructor
  · rintro ⟨-, s, hs, hins, hle⟩
    rcases List.mem_append.1 hs with hs | hs
    · have := hfront s hs
      omega
    · rcases List.mem_cons.1 hs with rfl | hs
      · rw [hk] at hins
        cases hins
      · exact ⟨s.2, mem_of_mem_placed hs, hins⟩
  · rintro ⟨op', hop', hins⟩
    obtain ⟨k, hk'⟩ := exists_mem_placed hop' (n + 1)
    refine ⟨?_, (k, op'), by simp [hk'], hins, le_of_mem_placed hk'⟩
    intro s hs hdel
    rcases List.mem_append.1 hs with hs | hs
    · have := hfront s hs
      rw [hdel, OpKind.consumes, if_pos rfl] at this
      omega
    · rcases List.mem_cons.1 hs with rfl | hs
      · rw [hk] at hdel
        cases hdel
      · have := le_of_mem_placed hs
        omega

/-- There is an operation that stands for each of the lines that operations stand for. -/
theorem exists_consuming {m : Nat} (h : m < ops.countP fun op => op.kind.consumes) :
    ∃ a op b, ops = a ++ op :: b ∧ op.kind.consumes = true ∧
      (a.countP fun op => op.kind.consumes) = m := by
  induction ops generalizing m with
  | nil => simp at h
  | cons op ops ih =>
    rw [List.countP_cons] at h
    cases hc : op.kind.consumes with
    | false =>
      rw [hc, if_neg Bool.false_ne_true] at h
      obtain ⟨a, op', b, rfl, hc', hm⟩ := ih h
      exact ⟨op :: a, op', b, rfl, hc', by rw [List.countP_cons, hc, hm]; rfl⟩
    | true =>
      cases m with
      | zero => exact ⟨[], op, ops, rfl, hc, rfl⟩
      | succ m =>
        rw [hc, if_pos rfl] at h
        obtain ⟨a, op', b, rfl, hc', hm⟩ := ih (Nat.lt_of_succ_lt_succ h)
        exact ⟨op :: a, op', b, rfl, hc', by rw [List.countP_cons, hc, hm]; rfl⟩

/-! ### The lines that patching leaves -/

/-- All raw lines that operations leave: those they make, and those they do not reach. -/
def pieces (ending : LineEnding) (ops : List Op) (raw : List Text) : List Text :=
  (patchLines ending ops raw).1 ++ (patchLines ending ops raw).2

theorem isLine_pieces (hn : ∀ op ∈ ops, '\n' ∉ op.text) (hraw : ∀ r ∈ raw, Text.IsLine r) :
    ∀ p ∈ pieces ending ops raw, Text.IsLine p := by
  refine List.forall_mem_append.2 ⟨isLine_patchLines hn hraw, ?_⟩
  rw [snd_patchLines]
  intro p hp
  exact hraw p (List.mem_of_mem_drop hp)

/-- What is left of lines and an open one is lines, and the open one among them if it stays; it is
the last of them unless something is inserted behind it. -/
theorem exists_pieces_eq (ending : LineEnding) (hn : ∀ op ∈ ops, '\n' ∉ op.text)
    (hraw : ∀ r ∈ raw, Text.IsLine r) (b : Text) :
    ∃ front back, (∀ p ∈ front, Text.IsLine p) ∧ (∀ p ∈ back, Text.IsLine p) ∧
      (pieces ending ops (raw ++ [b]) = front ++ back ∧
          ¬ FollowsLast (raw.length + 1) (placed 0 ops) ∨
        pieces ending ops (raw ++ [b]) = front ++ b :: back ∧
          (FollowsLast (raw.length + 1) (placed 0 ops) ↔ back ≠ [])) := by
  by_cases hc : (ops.countP fun op => op.kind.consumes) ≤ raw.length
  · -- the operations do not reach the open line
    refine ⟨pieces ending ops raw, [], isLine_pieces hn hraw, by simp, .inr ⟨?_, ?_⟩⟩
    · rw [pieces, patchLines_append_right hc, pieces, List.append_assoc]
    · simp only [ne_eq, not_true_eq_false, iff_false]
      rintro ⟨-, s, hs, -, hle⟩
      have := le_countP_of_mem_placed hs
      omega
  · obtain ⟨before, op, after, rfl, hop, hbefore⟩ := exists_consuming (Nat.lt_of_not_le hc)
    rw [List.forall_mem_append, List.forall_mem_cons] at hn
    obtain ⟨hnb, -, hna⟩ := hn
    have hreach : patchLines ending before (raw ++ [b]) =
        ((patchLines ending before raw).1, [b]) := by
      rw [patchLines_append_right (Nat.le_of_eq hbefore), snd_patchLines, hbefore, List.drop_length,
        List.nil_append]
    have hback : ∀ p ∈ (patchLines ending after []).1, Text.IsLine p :=
      isLine_patchLines hna (by simp)
    refine ⟨(patchLines ending before raw).1, (patchLines ending after []).1,
      isLine_patchLines hnb hraw, hback, ?_⟩
    rw [pieces, patchLines_append, hreach]
    cases hk : op.kind with
    | insert => simp [hk, OpKind.consumes] at hop
    | delete =>
      refine .inl ⟨by simp [patchLines_delete hk, patchLines_nil], ?_⟩
      rintro ⟨hdel, -⟩
      exact hdel (raw.length, op) (mem_placed_iff.2 ⟨before, after, rfl, by simp [hbefore]⟩) hk rfl
    | keep =>
      refine .inr ⟨by simp [patchLines_keep hk, patchLines_nil], ?_⟩
      rw [followsLast_iff_of_keep hbefore hk, patchLines_nil]
      simp [List.filter_eq_nil_iff]

/-- Where an open last line stays and is followed, it and the next line become one; else what is
left are the raw lines of the text that they make up. -/
theorem rawLines_pieces (ending : LineEnding) (hn : ∀ op ∈ ops, '\n' ∉ op.text) (t : Text) :
    (¬ (Text.IsOpen t ∧ FollowsLast (Text.rawLines t).length (placed 0 ops)) →
      Text.rawLines (pieces ending ops (Text.rawLines t)).flatten =
        pieces ending ops (Text.rawLines t)) ∧
    (Text.IsOpen t ∧ FollowsLast (Text.rawLines t).length (placed 0 ops) →
      (Text.rawLines (pieces ending ops (Text.rawLines t)).flatten).length <
        (pieces ending ops (Text.rawLines t)).length) := by
  obtain ⟨ps, b, hraw, hps, hb, hopen⟩ := Text.exists_rawLines_eq t
  rw [Text.rawLines_of_newline_notMem hb] at hraw
  by_cases hnil : b = []
  · rw [if_pos hnil, List.append_nil] at hraw
    have hclosed : ¬ Text.IsOpen t := fun ho => hopen.2 ho hnil
    refine ⟨fun _ => ?_, fun h => absurd h.1 hclosed⟩
    rw [hraw]
    exact Text.rawLines_flatten (isLine_pieces hn hps)
  · rw [if_neg hnil] at hraw
    simp only [hopen.1 hnil, true_and]
    rw [hraw, List.length_append, List.length_singleton]
    obtain ⟨front, back, hfront, hback, ⟨hgone, hfollows⟩ | ⟨hstays, hfollows⟩⟩ :=
      exists_pieces_eq ending hn hps b
    · refine ⟨fun _ => ?_, fun h => absurd h hfollows⟩
      rw [hgone]
      exact Text.rawLines_flatten (List.forall_mem_append.2 ⟨hfront, hback⟩)
    · rw [hfollows, hstays, List.flatten_append, List.flatten_cons,
        Text.rawLines_flatten_append hfront]
      cases back with
      | nil => simp [Text.rawLines_of_newline_notMem hb, hnil]
      | cons p back =>
        obtain ⟨hp, hback⟩ := List.forall_mem_cons.1 hback
        rw [List.flatten_cons, ← List.append_assoc, Text.rawLines_append_isLine hb hp,
          Text.rawLines_flatten hback]
        simp

end Op

end HunkEdits
