import HunkEdits.Proofs.Outcome
import Mathlib.Data.List.FinRange

/-!
# The order of hunks

A conversion takes hunks in ascending order of their first lines, and hunks with the same first line
in the order in which they come.  So what it gives depends only on the hunks of each first line and
on their order (`Edit.SameByStart.inOrder_eq`), and hunks may be permuted as long as that order is
kept (`Edit.ofHunks_permuted`).
-/

namespace HunkEdits.Edit

variable {o : Options} {base : Document} {hunks hunks' : List Hunk}

/-- Whether two lists have the same hunks for each first line, in the same order. -/
def SameByStart (hunks hunks' : List Hunk) : Prop :=
  ∀ line, (hunks.filter fun h => h.old.start = line) = hunks'.filter fun h => h.old.start = line

/-! ### Ascending order -/

/-- Hunks with the same first line keep their order. -/
theorem sameByStart_inOrder (hunks : List Hunk) : SameByStart (inOrder hunks) hunks := by
  intro line
  have hpairs : (hunks.filter fun h => h.old.start = line).Pairwise
      fun h k => decide (h.old.start ≤ k.old.start) = true := by
    refine List.pairwise_of_forall_mem_list ?_
    intro h hh k hk
    have hh : h.old.start = line := of_decide_eq_true (List.mem_filter.1 hh).2
    have hk : k.old.start = line := of_decide_eq_true (List.mem_filter.1 hk).2
    exact decide_eq_true (by omega)
  -- the sort is stable: it keeps whatever part of its input is in order
  have hsub : (hunks.filter fun h => h.old.start = line).Sublist (inOrder hunks) :=
    List.sublist_mergeSort start_le_trans start_le_total hpairs List.filter_sublist
  have hsub := hsub.filter fun h => h.old.start = line
  rw [List.filter_filter] at hsub
  simp only [Bool.and_self] at hsub
  have hperm := (List.mergeSort_perm hunks fun h k => decide (h.old.start ≤ k.old.start)).filter
    fun h => h.old.start = line
  exact (hsub.eq_of_length hperm.length_eq.symm).symm

namespace SameByStart

variable {h : Hunk}

theorem symm (hsame : SameByStart hunks hunks') : SameByStart hunks' hunks :=
  fun line => (hsame line).symm

theorem mem (hsame : SameByStart hunks hunks') (hh : h ∈ hunks) : h ∈ hunks' := by
  have hmem : h ∈ hunks.filter fun k => k.old.start = h.old.start :=
    List.mem_filter.2 ⟨hh, decide_eq_true rfl⟩
  rw [hsame] at hmem
  exact (List.mem_filter.1 hmem).1

theorem tail (hsame : SameByStart (h :: hunks) (h :: hunks')) : SameByStart hunks hunks' := by
  intro line
  have hline := hsame line
  by_cases hl : h.old.start = line
  · rw [List.filter_cons_of_pos (by simpa), List.filter_cons_of_pos (by simpa)] at hline
    exact (List.cons.inj hline).2
  · rwa [List.filter_cons_of_neg (by simpa), List.filter_cons_of_neg (by simpa)] at hline

/-- In ascending order there is one list for the hunks of all first lines. -/
theorem eq_of_pairwise (hsame : SameByStart hunks hunks')
    (hs : hunks.Pairwise fun h k => h.old.start ≤ k.old.start)
    (hs' : hunks'.Pairwise fun h k => h.old.start ≤ k.old.start) : hunks = hunks' := by
  induction hunks generalizing hunks' with
  | nil =>
    cases hunks' with
    | nil => rfl
    | cons h' hunks' => exact absurd (hsame.symm.mem (List.mem_cons_self ..)) List.not_mem_nil
  | cons h hunks ih =>
    have hh := hsame.mem (List.mem_cons_self ..)
    cases hunks' with
    | nil => exact absurd hh List.not_mem_nil
    | cons h' hunks' =>
      have hh' := hsame.symm.mem (List.mem_cons_self ..)
      obtain ⟨hle, htail⟩ := List.pairwise_cons.1 hs
      obtain ⟨hle', htail'⟩ := List.pairwise_cons.1 hs'
      -- each list has the head of the other, so that neither head begins later
      have hstart : h.old.start = h'.old.start := by
        have h₁ : h'.old.start ≤ h.old.start := by
          rcases List.mem_cons.1 hh with rfl | hm
          · exact Nat.le_refl _
          · exact hle' h hm
        have h₂ : h.old.start ≤ h'.old.start := by
          rcases List.mem_cons.1 hh' with rfl | hm
          · exact Nat.le_refl _
          · exact hle h' hm
        omega
      have hhead := hsame h.old.start
      rw [List.filter_cons_of_pos (by simp), List.filter_cons_of_pos (by simp [hstart])] at hhead
      obtain ⟨rfl, -⟩ := List.cons.inj hhead
      rw [ih hsame.tail htail htail']

theorem inOrder_eq (hsame : SameByStart hunks hunks') : inOrder hunks = inOrder hunks' := by
  have hboth : SameByStart (inOrder hunks) (inOrder hunks') := by
    intro line
    rw [sameByStart_inOrder, sameByStart_inOrder, hsame]
  exact hboth.eq_of_pairwise (pairwise_start_inOrder hunks) (pairwise_start_inOrder hunks')

end SameByStart

/-! ### Permutations -/

/-- A permutation that keeps the order of some places leaves these places where they are, among
themselves. -/
theorem filter_map_finRange {n : Nat} (σ : Equiv.Perm (Fin n)) (p : Fin n → Bool)
    (hσ : ∀ i j, i < j → p (σ i) = true → p (σ j) = true → σ i < σ j) :
    ((List.finRange n).map σ).filter p = (List.finRange n).filter p := by
  -- both have the same places, and each has them in ascending order
  refine List.Perm.eq_of_pairwise (fun i j _ _ hij hji => absurd hij (Fin.not_lt.2 hji.le)) ?_
    ((List.pairwise_lt_finRange n).filter p) (σ.map_finRange_perm.filter p)
  rw [List.filter_map, List.pairwise_map]
  refine (List.Pairwise.and_mem.1 ((List.pairwise_lt_finRange n).filter (p ∘ σ))).imp ?_
  rintro i j ⟨hi, hj, hij⟩
  exact hσ i j hij (List.mem_filter.1 hi).2 (List.mem_filter.1 hj).2

/-- A permutation that keeps the order of the hunks with the same first line keeps these hunks. -/
theorem sameByStart_permuted (σ : Equiv.Perm (Fin hunks.length))
    (hσ : ∀ i j, i < j → hunks[σ i].old.start = hunks[σ j].old.start → σ i < σ j) :
    SameByStart (List.ofFn fun i => hunks[σ i]) hunks := by
  intro line
  have hplaces := filter_map_finRange σ (fun i => hunks[i].old.start = line) fun i j hij hi hj =>
    hσ i j hij ((of_decide_eq_true hi).trans (of_decide_eq_true hj).symm)
  have hget : (List.finRange hunks.length).map (fun i => hunks[i]) = hunks :=
    List.map_getElem_finRange hunks
  calc ((List.ofFn fun i => hunks[σ i]).filter fun h => h.old.start = line)
      = (((List.finRange hunks.length).map σ).map fun i => hunks[i]).filter
          fun h => h.old.start = line := by rw [List.ofFn_eq_map, List.map_map]; rfl
    _ = (((List.finRange hunks.length).map σ).filter fun i => hunks[i].old.start = line).map
          fun i => hunks[i] := by rw [List.filter_map]; rfl
    _ = ((List.finRange hunks.length).filter fun i => hunks[i].old.start = line).map
          fun i => hunks[i] := by rw [hplaces]
    _ = ((List.finRange hunks.length).map fun i => hunks[i]).filter
          fun h => h.old.start = line := by rw [List.filter_map]; rfl
    _ = hunks.filter fun h => h.old.start = line := by rw [hget]

/-- **The order of hunks does not matter**, as long as those with the same first line keep theirs:
the conversion gives the same edits in the same order, or the same error. -/
theorem ofHunks_permuted (o : Options) (base : Document) (σ : Equiv.Perm (Fin hunks.length))
    (hσ : ∀ i j, i < j → hunks[σ i].old.start = hunks[σ j].old.start → σ i < σ j) :
    ofHunks o base (List.ofFn fun i => hunks[σ i]) = ofHunks o base hunks := by
  rw [ofHunks, ofHunks, (sameByStart_permuted σ hσ).inOrder_eq]

/-- The first two of three hunks change places, and the first and the last one begin at the same
line.  With verification on, the error is that of the hunk which begins first. -/
theorem ofHunks_permuted_swap :
    let h : Hunk := ⟨⟨2, 1⟩, ⟨3, 0⟩, [⟨.delete, ['c', '\n']⟩]⟩
    let k : Hunk := ⟨⟨0, 1⟩, ⟨0, 2⟩, [⟨.keep, ['b', '\n']⟩, ⟨.insert, ['x', '\n']⟩]⟩
    let h' : Hunk := ⟨⟨2, 0⟩, ⟨3, 1⟩, [⟨.insert, ['y', '\n']⟩]⟩
    ofHunks {} (.ofText ['a', '\n']) [h, k, h'] =
        .ok [.insert ⟨1, 0⟩ ['x', '\n'], .delete ⟨2, 0⟩ ⟨3, 0⟩, .insert ⟨2, 0⟩ ['y', '\n']] ∧
      ofHunks { lineEnding := .lf, verify := true } (.ofText ['a', '\n']) [h, k, h'] =
        .error (.contextMismatch 0 ['b'] (some ['a'])) := by
  intro h k h'
  have hperm (o : Options) : ofHunks o (.ofText ['a', '\n']) [k, h, h'] =
      ofHunks o (.ofText ['a', '\n']) [h, k, h'] :=
    @ofHunks_permuted [h, k, h'] o _ (Equiv.swap (0 : Fin 3) 1) (by decide)
  have horder : inOrder [k, h, h'] = [k, h, h'] := inOrder_of_pairwise (by decide)
  rw [← hperm, ← hperm, ofHunks, ofHunks, horder]
  exact ⟨rfl, rfl⟩

end HunkEdits.Edit
