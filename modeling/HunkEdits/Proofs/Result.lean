import HunkEdits.Text
import Mathlib.Data.List.Forall2

/-!
# Results of steps that may fail

Laws of `Except` for work that is done in steps: what a success says about its steps, and which step
a failure comes from.
-/

namespace HunkEdits

variable {ε α β γ : Type}

/-- A step and what follows it succeed if both do. -/
theorem bind_eq_ok_iff {x : Except ε α} {f : α → Except ε β} {b : β} :
    x >>= f = .ok b ↔ ∃ a, x = .ok a ∧ f a = .ok b := by
  cases x with
  | error err => simp [bind, Except.bind]
  | ok a => simp [bind, Except.bind]

theorem map_eq_ok_iff {x : Except ε α} {f : α → β} {b : β} :
    x.map f = .ok b ↔ ∃ a, x = .ok a ∧ f a = b := by
  cases x with
  | error err => simp [Except.map]
  | ok a => simp [Except.map]

theorem mapError_eq_ok_iff {ε' : Type} {f : ε → ε'} {x : Except ε α} {a : α} :
    x.mapError f = .ok a ↔ x = .ok a := by
  cases x <;> simp [Except.mapError]

/-! ### Doing the same with each member of a list -/

theorem mapM_cons_eq_ok_iff {f : α → Except ε β} {a : α} {l : List α} {r : List β} :
    (a :: l).mapM f = .ok r ↔ ∃ b bs, f a = .ok b ∧ l.mapM f = .ok bs ∧ r = b :: bs := by
  rw [List.mapM_cons, bind_eq_ok_iff]
  constructor
  · rintro ⟨b, hb, h⟩
    obtain ⟨bs, hbs, h⟩ := bind_eq_ok_iff.1 h
    exact ⟨b, bs, hb, hbs, (Except.ok.inj h).symm⟩
  · rintro ⟨b, bs, hb, hbs, rfl⟩
    exact ⟨b, hb, bind_eq_ok_iff.2 ⟨bs, hbs, rfl⟩⟩

theorem mem_of_mapM_eq_ok {f : α → Except ε β} {l : List α} {r : List β} (h : l.mapM f = .ok r)
    {b : β} (hb : b ∈ r) : ∃ a ∈ l, f a = .ok b := by
  induction l generalizing r with
  | nil =>
    obtain rfl : [] = r := Except.ok.inj h
    cases hb
  | cons a l ih =>
    obtain ⟨b', bs, hb', hbs, rfl⟩ := mapM_cons_eq_ok_iff.1 h
    rcases List.mem_cons.1 hb with rfl | hb
    · exact ⟨a, List.mem_cons_self .., hb'⟩
    · obtain ⟨a', ha', h'⟩ := ih hbs hb
      exact ⟨a', List.mem_cons_of_mem _ ha', h'⟩

/-- A relation of the members carries over to their results. -/
theorem pairwise_of_mapM_eq_ok {f : α → Except ε β} {l : List α} {r : List β} {Q : α → α → Prop}
    {R : β → β → Prop} (h : l.mapM f = .ok r) (hl : l.Pairwise Q)
    (hR : ∀ a a' b b', Q a a' → f a = .ok b → f a' = .ok b' → R b b') : r.Pairwise R := by
  induction l generalizing r with
  | nil =>
    obtain rfl : [] = r := Except.ok.inj h
    exact .nil
  | cons a l ih =>
    obtain ⟨b, bs, hb, hbs, rfl⟩ := mapM_cons_eq_ok_iff.1 h
    obtain ⟨ha, hl⟩ := List.pairwise_cons.1 hl
    refine List.pairwise_cons.2 ⟨?_, ih hbs hl⟩
    intro b' hb'
    obtain ⟨a', ha', hb'⟩ := mem_of_mapM_eq_ok hbs hb'
    exact hR a a' b b' (ha a' ha') hb hb'

/-- The failure of the first member that fails is that of the whole. -/
theorem mapM_eq_error {f : α → Except ε β} {g : α → Option ε} {l : List α} {err : ε}
    (herr : ∀ a ∈ l, ∀ err, g a = some err → f a = .error err)
    (hok : ∀ a ∈ l, g a = none → ∃ b, f a = .ok b) (h : l.findSome? g = some err) :
    l.mapM f = .error err := by
  induction l with
  | nil => cases h
  | cons a l ih =>
    obtain ⟨herr₁, herr⟩ := List.forall_mem_cons.1 herr
    obtain ⟨hok₁, hok⟩ := List.forall_mem_cons.1 hok
    rw [List.findSome?_cons] at h
    rw [List.mapM_cons]
    cases hg : g a with
    | some err' =>
      rw [hg] at h
      rw [herr₁ err' hg, ← Option.some.inj h]
      rfl
    | none =>
      rw [hg] at h
      obtain ⟨b, hb⟩ := hok₁ hg
      rw [hb, ih herr hok h]
      rfl

theorem mapM_eq_ok {f : α → Except ε β} {l : List α} (h : ∀ a ∈ l, ∃ b, f a = .ok b) :
    ∃ bs, l.mapM f = .ok bs := by
  induction l with
  | nil => exact ⟨[], rfl⟩
  | cons a l ih =>
    obtain ⟨⟨b, hb⟩, h⟩ := List.forall_mem_cons.1 h
    obtain ⟨bs, hbs⟩ := ih h
    exact ⟨b :: bs, mapM_cons_eq_ok_iff.2 ⟨b, bs, hb, hbs, rfl⟩⟩

/-- A success holds one result for each member. -/
theorem mapM_eq_ok_iff_forall₂ {f : α → Except ε β} {l : List α} {r : List β} :
    l.mapM f = .ok r ↔ List.Forall₂ (fun a b => f a = .ok b) l r := by
  induction l generalizing r with
  | nil =>
    rw [List.forall₂_nil_left_iff]
    exact ⟨fun h => (Except.ok.inj h).symm, fun h => h ▸ rfl⟩
  | cons a l ih =>
    rw [mapM_cons_eq_ok_iff, List.forall₂_cons_left_iff]
    constructor
    · rintro ⟨b, bs, hb, hbs, rfl⟩
      exact ⟨b, bs, hb, ih.1 hbs, rfl⟩
    · rintro ⟨b, bs, hb, hbs, rfl⟩
      exact ⟨b, bs, hb, ih.2 hbs, rfl⟩

/-- A step that fails in the same cases with other errors makes the whole fail so. -/
theorem mapM_mapError {ε' : Type} {φ : ε → ε'} {f : α → Except ε β} {g : α → Except ε' β}
    (h : ∀ a, g a = (f a).mapError φ) (l : List α) : l.mapM g = (l.mapM f).mapError φ := by
  induction l with
  | nil => rfl
  | cons a l ih =>
    rw [List.mapM_cons, List.mapM_cons, ih, h]
    cases f a with
    | error err => rfl
    | ok b => cases l.mapM f <;> rfl

theorem eq_map_of_mapM_eq_ok {f : α → Except ε β} {g : α → β} {l : List α} {r : List β}
    (hfg : ∀ a ∈ l, ∀ b, f a = .ok b → b = g a) (h : l.mapM f = .ok r) : r = l.map g := by
  induction l generalizing r with
  | nil => exact (Except.ok.inj h).symm
  | cons a l ih =>
    obtain ⟨hfg₁, hfg⟩ := List.forall_mem_cons.1 hfg
    obtain ⟨b, bs, hb, hbs, rfl⟩ := mapM_cons_eq_ok_iff.1 h
    rw [List.map_cons, ← hfg₁ b hb, ← ih hfg hbs]

/-! ### What succeeds in one way and in another -/

theorem exists_error_congr {x y : Except ε α} (h : ∀ a, x = .ok a ↔ y = .ok a) :
    (∃ err, x = .error err) ↔ ∃ err, y = .error err := by
  cases x with
  | error err =>
    cases y with
    | error err' => exact ⟨fun _ => ⟨err', rfl⟩, fun _ => ⟨err, rfl⟩⟩
    | ok a => cases (h a).2 rfl
  | ok a =>
    rw [(h a).1 rfl]

end HunkEdits
